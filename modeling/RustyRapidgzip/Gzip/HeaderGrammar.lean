import RustyRapidgzip.Gzip.Concat
import RustyRapidgzip.Lib.Reparse

/-!
# The grammar of a member header

The header as the format lists it: ten bytes, and then the optional fields that the flags
announce, one after the other. The parser walks over them with positions; it accepts exactly
the inputs that start with a header, and more input changes nothing but a cut-off.
-/

namespace RustyRapidgzip

open LsbBits

namespace Gzip

/-- A field that is there if its flag is set. -/
def Flagged (flg flag : UInt8) (P : List UInt8 → Prop) (bytes : List UInt8) : Prop :=
  if flg &&& flag ≠ 0 then P bytes else bytes = []

/-- The extra field: two bytes of length, and that many bytes. -/
def ExtraField (bytes : List UInt8) : Prop :=
  ∃ lo hi data, bytes = lo :: hi :: data ∧ data.length = lo.toNat + 256 * hi.toNat

/-- A string with its final zero byte. -/
def ZeroTerminated (bytes : List UInt8) : Prop := ∃ text, 0 ∉ text ∧ bytes = text ++ [0]

/-- The checksum of the header. -/
def HeaderChecksum (bytes : List UInt8) : Prop := bytes.length = 2

/-- A member header. -/
inductive IsHeader : List UInt8 → Prop
  | mk {flg : UInt8} {fixed extra name comment hcrc : List UInt8} (hflg : flg &&& FRESERVED = 0)
      (hfixed : fixed.length = 6) (hextra : Flagged flg FEXTRA ExtraField extra)
      (hname : Flagged flg FNAME ZeroTerminated name)
      (hcomment : Flagged flg FCOMMENT ZeroTerminated comment)
      (hhcrc : Flagged flg FHCRC HeaderChecksum hcrc) :
      IsHeader (0x1f :: 0x8b :: 8 :: flg :: (fixed ++ (extra ++ (name ++ (comment ++ hcrc)))))

/-! ## Fields by position -/

/-- The bytes between two positions of the input. -/
def Field (P : List UInt8 → Prop) (input : List UInt8) (pos n : ℕ) : Prop :=
  pos ≤ n ∧ n ≤ input.length ∧ P ((input.drop pos).take (n - pos))

section Fields

variable {P : List UInt8 → Prop} {input : List UInt8} {flg flag : UInt8} {pos n : ℕ}

/-- Two fields next to each other. -/
theorem slice_append {a b c : ℕ} (hab : a ≤ b) (hbc : b ≤ c) :
    (input.drop a).take (b - a) ++ (input.drop b).take (c - b) = (input.drop a).take (c - a) := by
  have hdrop : input.drop b = (input.drop a).drop (b - a) := by
    rw [List.drop_drop]
    congr 1
    omega
  rw [hdrop, ← List.take_add]
  congr 1
  omega

/-- A part of the input is a field between its ends. -/
theorem field_append {front bytes back : List UInt8} (hpos : front.length = pos)
    (hn : pos + bytes.length = n) (h : P bytes) : Field P (front ++ (bytes ++ back)) pos n := by
  refine ⟨by omega, by simp only [List.length_append]; omega, ?_⟩
  rw [← hpos, List.drop_left, show n - front.length = bytes.length by omega, List.take_left]
  exact h

/-- A field with a flag is there exactly where the flag is set. -/
theorem field_flagged (hpos : pos ≤ input.length) : Field (Flagged flg flag P) input pos n ↔
    if flg &&& flag ≠ 0 then Field P input pos n else n = pos := by
  unfold Field Flagged
  by_cases hflag : flg &&& flag ≠ 0
  · simp only [if_pos hflag]
  · simp only [if_neg hflag]
    constructor
    · rintro ⟨hle, hn, hnil⟩
      have hlen := congrArg List.length hnil
      rw [List.length_take, List.length_drop, List.length_nil] at hlen
      omega
    · rintro rfl
      exact ⟨le_rfl, hpos, by rw [Nat.sub_self, List.take_zero]⟩

/-- The string ends at its first zero byte. -/
theorem skipZstring_iff (hpos : pos ≤ input.length) :
    skipZstring input pos = .ok n ↔ Field ZeroTerminated input pos n := by
  unfold skipZstring
  rw [if_neg (by omega)]
  constructor
  · intro h
    cases hfind : (input.drop pos).findIdx? (· == 0) with
    | none =>
      rw [hfind] at h
      cases h
    | some offset =>
      rw [hfind] at h
      cases h
      obtain ⟨hlt, hzero, hbefore⟩ := List.findIdx?_eq_some_iff_getElem.mp hfind
      rw [List.length_drop] at hlt
      refine ⟨by omega, by omega, (input.drop pos).take offset, ?_, ?_⟩
      · intro hmem
        obtain ⟨j, hj, hget⟩ := List.getElem_of_mem hmem
        rw [List.length_take] at hj
        rw [List.getElem_take] at hget
        have hnot := hbefore j (by omega)
        rw [hget] at hnot
        exact hnot rfl
      · have hbound : offset < (input.drop pos).length := by
          rw [List.length_drop]
          omega
        have hlast : (input.drop pos)[offset] = 0 := beq_iff_eq.mp hzero
        rw [show pos + offset + 1 - pos = offset + 1 by omega,
          List.take_succ_eq_append_getElem hbound, hlast]
  · rintro ⟨hle, hn, text, htext, hbytes⟩
    have hsplit := List.take_append_drop (n - pos) (input.drop pos)
    rw [hbytes] at hsplit
    have hlen := congrArg List.length hbytes
    rw [List.length_take, List.length_drop, List.length_append, List.length_singleton] at hlen
    have hnone : text.findIdx? (· == 0) = none := by
      rw [List.findIdx?_eq_none_iff]
      intro b hb
      rw [beq_eq_false_iff_ne]
      rintro rfl
      exact htext hb
    have hfind : (input.drop pos).findIdx? (· == 0) = some text.length := by
      rw [← hsplit, List.append_assoc, List.findIdx?_append, hnone, List.singleton_append,
        List.findIdx?_cons]
      simp
    rw [hfind]
    simp only [Except.ok.injEq]
    omega

/-- The parser skips strings that end with a zero. -/
theorem skipFlagged_iff (hpos : pos ≤ input.length) : skipFlagged input flg flag pos = .ok n ↔
    Field (Flagged flg flag ZeroTerminated) input pos n := by
  rw [field_flagged hpos, skipFlagged]
  by_cases hflag : flg &&& flag ≠ 0
  · rw [if_pos hflag, if_pos hflag, skipZstring_iff hpos]
  · rw [if_neg hflag, if_neg hflag, Except.ok.injEq, eq_comm]

/-- The parser skips the two bytes of a checksum. -/
theorem skipHcrc_iff (hpos : pos ≤ input.length) : skipHcrc input flg pos = .ok n ↔
    Field (Flagged flg FHCRC HeaderChecksum) input pos n := by
  rw [field_flagged hpos, skipHcrc]
  by_cases hflag : flg &&& FHCRC ≠ 0
  swap
  · rw [if_neg hflag, if_neg hflag, Except.ok.injEq, eq_comm]
  rw [if_pos hflag, if_pos hflag, Field, HeaderChecksum, List.length_take, List.length_drop]
  by_cases hshort : input.length < pos + 2
  · rw [if_pos hshort]
    simp only [reduceCtorEq, false_iff]
    omega
  · rw [if_neg hshort, Except.ok.injEq]
    omega

/-- The extra field is as long as its first two bytes say. -/
theorem field_extra_iff {lo hi : UInt8} {rest : List UInt8}
    (hrest : input.drop 10 = lo :: hi :: rest) : Field ExtraField input 10 n ↔
      n = 10 + (2 + (lo.toNat + 256 * hi.toNat)) ∧ n ≤ input.length := by
  have hlength := congrArg List.length hrest
  simp only [List.length_drop, List.length_cons] at hlength
  constructor
  · rintro ⟨hle, hn, lo', hi', data, hbytes, hdata⟩
    have hsize := congrArg List.length hbytes
    simp only [List.length_take, List.length_drop, List.length_cons] at hsize
    rw [hrest, show n - 10 = n - 12 + 1 + 1 by omega, List.take_succ_cons,
      List.take_succ_cons] at hbytes
    injection hbytes with hlo htail
    injection htail with hhi htail
    rw [← hlo, ← hhi] at hdata
    exact ⟨by omega, hn⟩
  · rintro ⟨rfl, hn⟩
    refine ⟨by omega, hn, lo, hi, rest.take (lo.toNat + 256 * hi.toNat), ?_, ?_⟩
    · rw [hrest, show 10 + (2 + (lo.toNat + 256 * hi.toNat)) - 10 =
        lo.toNat + 256 * hi.toNat + 1 + 1 by omega]
      rfl
    · rw [List.length_take]
      omega

/-- The parser skips the extra field by its length. -/
theorem skipExtra_iff (hlen : 10 ≤ input.length) : skipExtra input flg = .ok n ↔
    Field (Flagged flg FEXTRA ExtraField) input 10 n := by
  rw [field_flagged hlen, skipExtra]
  by_cases hflag : flg &&& FEXTRA ≠ 0
  swap
  · rw [if_neg hflag, if_neg hflag, Except.ok.injEq, eq_comm]
  rw [if_pos hflag, if_pos hflag]
  by_cases hshort : input.length < 10 + 2
  · rw [if_pos hshort]
    simp only [reduceCtorEq, false_iff]
    rintro ⟨hle, hn, lo, hi, data, hbytes, -⟩
    have hsize := congrArg List.length hbytes
    simp only [List.length_take, List.length_drop, List.length_cons] at hsize
    omega
  rw [if_neg hshort]
  obtain ⟨lo, hi, rest, hrest⟩ : ∃ lo hi rest, input.drop 10 = lo :: hi :: rest := by
    have hsize : 2 ≤ (input.drop 10).length := by
      rw [List.length_drop]
      omega
    match h : input.drop 10, hsize with
    | lo :: hi :: rest, _ => exact ⟨lo, hi, rest, rfl⟩
  have hxlen : leNat ((input.drop 10).take 2) = lo.toNat + 256 * hi.toNat := by
    rw [hrest]
    simp [leNat]
  rw [field_extra_iff hrest]
  simp only [hxlen]
  by_cases hcut : input.length < 10 + (2 + (lo.toNat + 256 * hi.toNat))
  · rw [if_pos hcut]
    simp only [reduceCtorEq, false_iff]
    omega
  · rw [if_neg hcut, Except.ok.injEq]
    omega

/-- One field after another, where the next one starts at what the first returns. -/
theorem bind_ok_iff {r : Except GzipError ℕ} {next : ℕ → Except GzipError ℕ} :
    (r >>= next) = .ok n ↔ ∃ m, r = .ok m ∧ next m = .ok n := by
  cases r with
  | error e => simp [bind, Except.bind]
  | ok m => simp [bind, Except.bind]

/-- The optional fields lie one after the other. -/
theorem parseFields_iff (hlen : 10 ≤ input.length) : parseFields input flg = .ok n ↔
    ∃ a b c, Field (Flagged flg FEXTRA ExtraField) input 10 a ∧
      Field (Flagged flg FNAME ZeroTerminated) input a b ∧
      Field (Flagged flg FCOMMENT ZeroTerminated) input b c ∧
      Field (Flagged flg FHCRC HeaderChecksum) input c n := by
  unfold parseFields
  simp only [bind_ok_iff, skipExtra_iff hlen]
  constructor
  · rintro ⟨a, hextra, b, hname, c, hcomment, hhcrc⟩
    have hname' := (skipFlagged_iff hextra.2.1).mp hname
    have hcomment' := (skipFlagged_iff hname'.2.1).mp hcomment
    exact ⟨a, b, c, hextra, hname', hcomment', (skipHcrc_iff hcomment'.2.1).mp hhcrc⟩
  · rintro ⟨a, b, c, hextra, hname, hcomment, hhcrc⟩
    exact ⟨a, hextra, b, (skipFlagged_iff hextra.2.1).mpr hname, c,
      (skipFlagged_iff hname.2.1).mpr hcomment, (skipHcrc_iff hcomment.2.1).mpr hhcrc⟩

/-- The first ten bytes of an accepted header. -/
theorem take_ten (hlen : 10 ≤ input.length) (hmagic : input.take 2 = GZ_MAGIC)
    (hcm : input.getD 2 0 = CM_DEFLATE) :
    input.take 10 = 0x1f :: 0x8b :: 8 :: input.getD 3 0 :: (input.drop 4).take 6 := by
  match input, hlen, hmagic, hcm with
  | m₀ :: m₁ :: cm :: flg :: rest, _, hmagic, hcm =>
    have hm : [m₀, m₁] = GZ_MAGIC := hmagic
    injection hm with hm₀ hm
    injection hm with hm₁ _
    have hcm' : cm = CM_DEFLATE := hcm
    rw [hm₀, hm₁, hcm']
    rfl

/-- What the parser accepts is a header. -/
theorem isHeader_of_parseHeader (h : parseHeader input = .ok n) : IsHeader (input.take n) := by
  obtain ⟨hten, hle⟩ := parseHeader_bounds h
  unfold parseHeader at h
  rw [if_neg (by omega)] at h
  split at h
  · cases h
  next hmagic =>
  simp only at h
  split at h
  · cases h
  next hcm =>
  split at h
  · cases h
  next hflags =>
  obtain ⟨a, b, c, hextra, hname, hcomment, hhcrc⟩ := (parseFields_iff (by omega)).mp h
  have hwhole : input.take n = input.take 10 ++ ((input.drop 10).take (a - 10) ++
      ((input.drop a).take (b - a) ++ ((input.drop b).take (c - b) ++
        (input.drop c).take (n - c)))) := by
    have hstart := @slice_append input 0 10 n (Nat.zero_le 10) hten
    rw [slice_append hcomment.1 hhcrc.1, slice_append hname.1 (hcomment.1.trans hhcrc.1),
      slice_append hextra.1 (hname.1.trans (hcomment.1.trans hhcrc.1))]
    simpa only [List.drop_zero, Nat.sub_zero] using hstart.symm
  rw [hwhole, take_ten (by omega) (not_not.mp hmagic) (not_not.mp hcm)]
  apply IsHeader.mk (not_not.mp hflags)
  · rw [List.length_take, List.length_drop]
    omega
  · exact hextra.2.2
  · exact hname.2.2
  · exact hcomment.2.2
  · exact hhcrc.2.2

/-- The parser accepts a header, whatever follows it. -/
theorem parseHeader_header {bytes : List UInt8} (h : IsHeader bytes) (tail : List UInt8) :
    parseHeader (bytes ++ tail) = .ok bytes.length := by
  obtain ⟨hflg, hfixed, hextra, hname, hcomment, hhcrc⟩ := h
  next flg fixed extra name comment hcrc =>
  unfold parseHeader
  rw [if_neg (by simp only [List.length_append, List.length_cons]; omega), if_neg (by simp; rfl)]
  simp only [List.cons_append, List.getD_cons_succ, List.getD_cons_zero]
  rw [if_neg (by decide), if_neg (not_not.mpr hflg), parseFields_iff
    (by simp only [List.length_append, List.length_cons]; omega)]
  -- each field stands behind what comes before it
  have hfront (front back : List UInt8) :
      0x1f :: 0x8b :: 8 :: flg :: (front ++ back) = (0x1f :: 0x8b :: 8 :: flg :: front) ++ back :=
    rfl
  refine ⟨10 + extra.length, 10 + extra.length + name.length,
    10 + extra.length + name.length + comment.length, ?_, ?_, ?_, ?_⟩
  · simp only [List.append_assoc]
    rw [hfront]
    exact field_append (by simp [hfixed]) rfl hextra
  · simp only [List.append_assoc]
    rw [← List.append_assoc fixed, hfront]
    exact field_append (by simp [hfixed]; omega) rfl hname
  · simp only [List.append_assoc]
    rw [← List.append_assoc extra, ← List.append_assoc fixed, hfront]
    exact field_append (by simp [hfixed]; omega) rfl hcomment
  · simp only [List.append_assoc]
    rw [← List.append_assoc name, ← List.append_assoc extra, ← List.append_assoc fixed, hfront]
    refine field_append (by simp [hfixed]; omega) ?_ hhcrc
    simp only [List.length_cons, List.length_append, hfixed]
    omega

/-- The parser accepts exactly the inputs that start with a header, and returns its length. -/
theorem parseHeader_ok_iff :
    parseHeader input = .ok n ↔ n ≤ input.length ∧ IsHeader (input.take n) := by
  constructor
  · intro h
    exact ⟨(parseHeader_bounds h).2, isHeader_of_parseHeader h⟩
  · rintro ⟨hle, hheader⟩
    have hparse := parseHeader_header hheader (input.drop n)
    rwa [List.take_append_drop, List.length_take_of_le hle] at hparse

/-- Any result but a cut-off is the result on a longer input. -/
theorem stable_parseHeader : Reparse.Stable parseHeader .truncated := by
  intro input input' h hcut
  cases hparse : parseHeader input with
  | ok n => exact parseHeader_local hparse ((List.take_prefix _ _).trans h)
  | error e =>
    refine parseHeader_error_local hparse ?_ h
    rintro rfl
    exact hcut hparse

end Fields

end Gzip

end RustyRapidgzip
