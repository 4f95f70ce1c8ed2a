import RustyRapidgzip.Deflate.Frame
import RustyRapidgzip.Gzip.Member

/-!
# Concatenated members

A member ends with its trailer: the bytes after it do not change what a decoder makes of
it, so decoding a concatenation is decoding the parts one after the other. The bytes
before a member are another matter. A copy may reach back into them, and no decoder
refuses it.
-/

namespace RustyRapidgzip

open LsbBits Reference Crc Lz

namespace Gzip

/-! ## Headers and trailers are local -/

section Header

variable {input input' : List UInt8} {n : ℕ}

/-- Bytes before the end of a common part are the same. -/
theorem take_drop_of_isPrefix {a b : ℕ} (hle : a + b ≤ n) (hn : n ≤ input.length)
    (h : input.take n <+: input') : (input'.drop a).take b = (input.drop a).take b := by
  obtain ⟨tail, rfl⟩ := h
  have hlen : (input.take n).length = n := List.length_take_of_le hn
  rw [List.drop_append_of_le_length (by omega), List.take_append_of_le_length (by simp; omega),
    List.drop_take, List.take_take, Nat.min_eq_left (by omega)]

/-- An input with the beginning has its length at least. -/
theorem length_le_of_isPrefix (hn : n ≤ input.length) (h : input.take n <+: input') :
    n ≤ input'.length := by
  have hlen := h.length_le
  rwa [List.length_take_of_le hn] at hlen

/-- An input with the beginning has every shorter one. -/
theorem prefix_of_le {m : ℕ} (hle : m ≤ n) (h : input.take n <+: input') :
    input.take m <+: input' :=
  (List.take_prefix_take_left hle).trans h

/-- An input with the beginning has its bytes. -/
theorem getD_of_isPrefix {i : ℕ} (hi : i < n) (hn : n ≤ input.length)
    (h : input.take n <+: input') :
    input'.getD i 0 = input.getD i 0 := by
  have htake := take_drop_of_isPrefix (a := i) (b := 1) hi hn h
  have hlen := length_le_of_isPrefix hn h
  rw [List.drop_eq_getElem_cons (show i < input'.length by omega),
    List.drop_eq_getElem_cons (show i < input.length by omega)] at htake
  simp only [List.take_succ_cons, List.take_zero, List.cons.injEq, and_true] at htake
  rw [List.getD_eq_getElem _ _ (by omega), List.getD_eq_getElem _ _ (by omega), htake]

/-- A parser that moves on from `pos` and looks at no byte after its result. -/
def LocalFrom (pos : ℕ) (parse : List UInt8 → Except GzipError ℕ) : Prop :=
  ∀ input n, pos ≤ input.length → parse input = .ok n → pos ≤ n ∧ n ≤ input.length ∧
    ∀ input', input.take n <+: input' → parse input' = .ok n

/-- One parser after another. -/
theorem LocalFrom.bind {pos : ℕ} {parse : List UInt8 → Except GzipError ℕ}
    {next : ℕ → List UInt8 → Except GzipError ℕ} (h : LocalFrom pos parse)
    (hnext : ∀ n, LocalFrom n (next n)) :
    LocalFrom pos fun input => parse input >>= fun n => next n input := by
  intro input m hstart hok
  cases hparse : parse input with
  | error e =>
    simp only [hparse, Bind.bind, Except.bind, reduceCtorEq] at hok
  | ok n =>
    obtain ⟨hpos, hn, hlocal⟩ := h input n hstart hparse
    simp only [hparse, Bind.bind, Except.bind] at hok
    obtain ⟨hle, hm, hlocal'⟩ := hnext n input m hn hok
    refine ⟨by omega, hm, fun input' hinit => ?_⟩
    simp only [hlocal input' (prefix_of_le hle hinit), Bind.bind, Except.bind]
    exact hlocal' input' hinit

/-- Skipping a string is local. -/
theorem localFrom_skipZstring (pos : ℕ) : LocalFrom pos fun input => skipZstring input pos := by
  intro input n hstart hok
  have hskips : Skips input pos (skipZstring input pos) := skipZstring_skips
  simp only at hok
  rw [hok] at hskips
  refine ⟨hskips.1, hskips.2, fun input' hinit => ?_⟩
  have hlen := length_le_of_isPrefix hskips.2 hinit
  unfold skipZstring at hok
  rw [if_neg (by omega)] at hok
  cases hfind : (input.drop pos).findIdx? (· == 0) with
  | none =>
    rw [hfind] at hok
    cases hok
  | some offset =>
    rw [hfind] at hok
    cases hok
    have hle := hskips.2
    have hsame := take_drop_of_isPrefix (a := pos) (b := offset + 1) (by omega) hle hinit
    have hshort : ((input.drop pos).take (offset + 1)).findIdx? (· == 0) = some offset := by
      rw [← List.take_append_drop (offset + 1) (input.drop pos), List.findIdx?_append,
        Option.or_eq_some_iff] at hfind
      rcases hfind with hfirst | ⟨-, hsecond⟩
      · exact hfirst
      · obtain ⟨j, -, hj⟩ := Option.map_eq_some_iff.mp hsecond
        rw [List.length_take, List.length_drop] at hj
        omega
    have hfind' : (input'.drop pos).findIdx? (· == 0) = some offset := by
      rw [← List.take_append_drop (offset + 1) (input'.drop pos), List.findIdx?_append, hsame,
        hshort]
      rfl
    simp only [skipZstring]
    rw [if_neg (by omega), hfind']

/-- Staying at a place is local. -/
theorem LocalFrom.pure (pos : ℕ) : LocalFrom pos fun _ => .ok pos := by
  intro input n hstart hok
  cases hok
  exact ⟨le_rfl, hstart, fun _ _ => rfl⟩

/-- Skipping a string that a flag announces is local. -/
theorem localFrom_skipFlagged (flg flag : UInt8) (pos : ℕ) :
    LocalFrom pos fun input => skipFlagged input flg flag pos := by
  unfold skipFlagged
  by_cases hflag : flg &&& flag ≠ 0
  · simpa only [if_pos hflag] using localFrom_skipZstring pos
  · simpa only [if_neg hflag] using LocalFrom.pure pos

/-- Skipping the extra field is local. -/
theorem localFrom_skipExtra (flg : UInt8) : LocalFrom 10 fun input => skipExtra input flg := by
  unfold skipExtra
  by_cases hflag : flg &&& FEXTRA ≠ 0
  swap
  · simpa only [if_neg hflag] using LocalFrom.pure 10
  simp only [if_pos hflag]
  intro input n _ hok
  simp only at hok
  split at hok
  · cases hok
  split at hok
  · cases hok
  cases hok
  refine ⟨by omega, by omega, fun input' hinit => ?_⟩
  have hlen := length_le_of_isPrefix (by omega) hinit
  have hsize : (input'.drop 10).take 2 = (input.drop 10).take 2 :=
    take_drop_of_isPrefix (by omega) (by omega) hinit
  simp only [hsize]
  rw [if_neg (by omega), if_neg (by omega)]

/-- Skipping the header's checksum is local. -/
theorem localFrom_skipHcrc (flg : UInt8) (pos : ℕ) :
    LocalFrom pos fun input => skipHcrc input flg pos := by
  unfold skipHcrc
  by_cases hflag : flg &&& FHCRC ≠ 0
  swap
  · simpa only [if_neg hflag] using LocalFrom.pure pos
  simp only [if_pos hflag]
  intro input n _ hok
  simp only at hok
  split at hok
  · cases hok
  cases hok
  refine ⟨by omega, by omega, fun input' hinit => ?_⟩
  have hlen := length_le_of_isPrefix (by omega) hinit
  simp only
  rw [if_neg (by omega)]

/-- Skipping the optional fields is local. -/
theorem localFrom_parseFields (flg : UInt8) : LocalFrom 10 fun input => parseFields input flg :=
  (localFrom_skipExtra flg).bind fun _ => (localFrom_skipFlagged flg FNAME _).bind fun _ =>
    (localFrom_skipFlagged flg FCOMMENT _).bind fun _ => localFrom_skipHcrc flg _

/-- A header does not depend on what follows it. -/
theorem parseHeader_local (hok : parseHeader input = .ok n) (h : input.take n <+: input') :
    parseHeader input' = .ok n := by
  obtain ⟨hge, hle⟩ := parseHeader_bounds hok
  have hlen := length_le_of_isPrefix hle h
  have hmagic : input'.take 2 = input.take 2 := by
    simpa only [List.drop_zero] using take_drop_of_isPrefix (a := 0) (b := 2) (by omega) hle h
  have hcm : input'.getD 2 0 = input.getD 2 0 := getD_of_isPrefix (by omega) hle h
  have hflg : input'.getD 3 0 = input.getD 3 0 := getD_of_isPrefix (by omega) hle h
  unfold parseHeader at hok ⊢
  rw [if_neg (by omega)] at hok ⊢
  simp only [hmagic, hcm, hflg]
  split at hok
  · cases hok
  · next hmagic =>
    simp only at hok
    split at hok
    · cases hok
    · next hcm =>
      split at hok
      · cases hok
      · next hflags =>
        rw [if_neg hmagic, if_neg hcm, if_neg hflags]
        exact (localFrom_parseFields _ input n (by omega) hok).2.2 input' h

/-- The optional fields are never wrong, only cut off. -/
theorem parseFields_error {flg : UInt8} {e : GzipError} (h : parseFields input flg = .error e) :
    e = .truncated := by
  have hstring {pos : ℕ} {e : GzipError} (h : skipZstring input pos = .error e) :
      e = .truncated := by
    unfold skipZstring at h
    split at h
    · cases h
      rfl
    · split at h <;> cases h
      rfl
  have hflagged {flag : UInt8} {pos : ℕ} {e : GzipError}
      (h : skipFlagged input flg flag pos = .error e) : e = .truncated := by
    unfold skipFlagged at h
    split at h
    · exact hstring h
    · cases h
  unfold parseFields at h
  cases hextra : skipExtra input flg with
  | error e' =>
    rw [hextra] at h
    cases h
    unfold skipExtra at hextra
    split at hextra
    · split at hextra
      · cases hextra
        rfl
      · simp only at hextra
        split at hextra <;> cases hextra
        rfl
    · cases hextra
  | ok pos =>
    rw [hextra] at h
    simp only [bind, Except.bind] at h
    split at h
    · next hname =>
      cases h
      exact hflagged hname
    split at h
    · next hcomment =>
      cases h
      exact hflagged hcomment
    · unfold skipHcrc at h
      split at h
      · split at h <;> cases h
        rfl
      · cases h

/-- A header that is wrong stays so, whatever follows. -/
theorem parseHeader_error_local {e : GzipError} (herr : parseHeader input = .error e)
    (he : e ≠ .truncated) (h : input <+: input') : parseHeader input' = .error e := by
  have htake : input.take input.length <+: input' := by rwa [List.take_length]
  have hlen := h.length_le
  unfold parseHeader at herr ⊢
  by_cases hshort : input.length < 10
  · rw [if_pos hshort] at herr
    cases herr
    exact absurd rfl he
  have hmagic : input'.take 2 = input.take 2 := by
    simpa only [List.drop_zero] using
      take_drop_of_isPrefix (a := 0) (b := 2) (by omega) le_rfl htake
  have hcm : input'.getD 2 0 = input.getD 2 0 := getD_of_isPrefix (by omega) le_rfl htake
  have hflg : input'.getD 3 0 = input.getD 3 0 := getD_of_isPrefix (by omega) le_rfl htake
  rw [if_neg hshort] at herr
  rw [if_neg (by omega), hmagic]
  simp only [hcm, hflg]
  split at herr
  · next hbad => rwa [if_pos hbad]
  next hbad =>
  rw [if_neg hbad]
  simp only at herr
  split at herr
  · next hmethod => rwa [if_pos hmethod]
  next hmethod =>
  rw [if_neg hmethod]
  split at herr
  · next hflags => rwa [if_pos hflags]
  · exact absurd (parseFields_error herr) he

/-- A trailer does not depend on what follows it. -/
theorem checkTrailer_local {crc : Checksum} {pos member : ℕ} {o : List UInt8}
    (hok : checkTrailer crc input pos o member = .ok n) (h : input.take n <+: input') :
    checkTrailer crc input' pos o member = .ok n := by
  rw [checkTrailer_ok_iff] at hok ⊢
  obtain ⟨hroom, hcrc, hsize, rfl⟩ := hok
  refine ⟨length_le_of_isPrefix hroom h, ?_, ?_, rfl⟩
  · rwa [take_drop_of_isPrefix (by omega) hroom h]
  · rwa [take_drop_of_isPrefix (by omega) hroom h]

end Header

/-! ## Members are local -/

/-- A stream does not depend on what follows its last byte. -/
theorem stream_local {body body' : List UInt8} {ts : List Token} {rest : List Bool} {e : ℕ}
    (h : Stream 0 (bits body) ts rest) (he : e + rest.length = 8 * body.length)
    (hinit : body.take ((e + 7) / 8) <+: body') :
    ∃ rest', Stream 0 (bits body') ts rest' ∧ e + rest'.length = 8 * body'.length := by
  obtain ⟨used, hused, hframe⟩ := h.frame
  obtain ⟨tail, rfl⟩ := hinit
  have hlen : used.length = e := by
    have hbits := congrArg List.length hused
    rw [bits_length, List.length_append] at hbits
    omega
  have hfront : (body.take ((e + 7) / 8)).length = (e + 7) / 8 :=
    List.length_take_of_le (by omega)
  have hsplit : used = (bits (body.take ((e + 7) / 8))).take e := by
    have hbits : bits body = bits (body.take ((e + 7) / 8)) ++ bits (body.drop ((e + 7) / 8)) := by
      rw [← bits_append, List.take_append_drop]
    have htake := congrArg (List.take e) (hbits.symm.trans hused)
    rw [List.take_append_of_le_length (by rw [bits_length]; omega), ← hlen,
      List.take_left] at htake
    rw [← htake, hlen]
  refine ⟨(bits (body.take ((e + 7) / 8))).drop e ++ bits tail, ?_, ?_⟩
  · have hstream := hframe ((bits (body.take ((e + 7) / 8))).drop e ++ bits tail)
      (fun _ => false) (by simp only [List.length_append, List.length_drop, bits_length]; omega)
      fun _ _ => rfl
    rwa [hsplit, ← List.append_assoc, List.take_append_drop, ← bits_append] at hstream
  · simp only [List.length_append, List.length_drop, bits_length]
    omega

section Members

variable {crc : Checksum} {input input' out o : List UInt8} {n : ℕ}

/-- A whole member, as far as its own bytes go: a header, a stream and the place of a
trailer. -/
def Frame (input : List UInt8) (ts : List Token) (trailerStart : ℕ) : Prop :=
  ∃ headerLen rest, parseHeader input = .ok headerLen ∧
    Stream 0 (bits (input.drop headerLen)) ts rest ∧
    trailerStart = headerLen + (8 * (input.drop headerLen).length - rest.length + 7) / 8

/-- A member is a frame whose tokens and trailer match. -/
theorem member_iff : Member crc input out n o ↔ ∃ ts trailerStart, Frame input ts trailerStart ∧
    expand id out ts = some (out ++ o) ∧ checkTrailer crc input trailerStart o 0 = .ok n := by
  constructor
  · rintro ⟨headerLen, e, hheader, hinflate, htrailer⟩
    obtain ⟨ts, rest, hstream, hexpand, he⟩ := inflate_iff.mp hinflate
    refine ⟨ts, _, ⟨headerLen, rest, hheader, hstream, rfl⟩, hexpand, ?_⟩
    rwa [← he, Nat.add_sub_cancel]
  · rintro ⟨ts, _, ⟨headerLen, rest, hheader, hstream, rfl⟩, hexpand, htrailer⟩
    have hle := hstream.length_lt
    rw [bits_length] at hle
    exact ⟨headerLen, _, hheader, inflate_iff.mpr ⟨ts, rest, hstream, hexpand,
      Nat.sub_add_cancel hle.le⟩, htrailer⟩

/-- An input has one member at its start. -/
theorem Frame.unique {ts ts' : List Token} {trailerStart trailerStart' : ℕ}
    (h : Frame input ts trailerStart) (h' : Frame input ts' trailerStart') :
    ts = ts' ∧ trailerStart = trailerStart' := by
  obtain ⟨headerLen, rest, hheader, hstream, rfl⟩ := h
  obtain ⟨headerLen', rest', hheader', hstream', rfl⟩ := h'
  rw [hheader] at hheader'
  cases hheader'
  obtain ⟨-, rfl, rfl⟩ := Blocks.unique hstream hstream'
  exact ⟨rfl, rfl⟩

/-- A frame does not depend on what follows it. -/
theorem Frame.local {ts : List Token} {trailerStart : ℕ} (h : Frame input ts trailerStart)
    (hinit : input.take trailerStart <+: input') : Frame input' ts trailerStart := by
  obtain ⟨headerLen, rest, hheader, hstream, rfl⟩ := h
  obtain ⟨-, hle⟩ := parseHeader_bounds hheader
  have hlt := hstream.length_lt
  rw [bits_length] at hlt
  have hheader' := parseHeader_local hheader (prefix_of_le (Nat.le_add_right _ _) hinit)
  have hbody : (input.drop headerLen).take
      ((8 * (input.drop headerLen).length - rest.length + 7) / 8) <+: input'.drop headerLen := by
    obtain ⟨tail, rfl⟩ := hinit
    have hroom : headerLen ≤ (input.take (headerLen +
        (8 * (input.drop headerLen).length - rest.length + 7) / 8)).length := by
      rw [List.length_take]
      omega
    rw [List.drop_append_of_le_length hroom, List.drop_take, Nat.add_sub_cancel_left]
    exact List.prefix_append _ _
  obtain ⟨rest', hstream', he⟩ :=
    stream_local hstream (Nat.sub_add_cancel hlt.le) hbody
  refine ⟨headerLen, rest', hheader', hstream', ?_⟩
  congr 2
  omega

/-- A member takes a byte of the input or more. -/
theorem Member.le_length (h : Member crc input out n o) : 0 < n ∧ n ≤ input.length := by
  obtain ⟨headerLen, e, -, -, htrailer⟩ := h
  obtain ⟨hroom, -, -, rfl⟩ := checkTrailer_ok_iff.mp htrailer
  omega

/-- A member has one length and one output. -/
theorem Member.unique {n' : ℕ} {o' : List UInt8} (h : Member crc input out n o)
    (h' : Member crc input out n' o') : n = n' ∧ o = o' := by
  obtain ⟨ts, trailerStart, hframe, hexpand, htrailer⟩ := member_iff.mp h
  obtain ⟨ts', trailerStart', hframe', hexpand', htrailer'⟩ := member_iff.mp h'
  obtain ⟨rfl, rfl⟩ := hframe.unique hframe'
  rw [hexpand, Option.some.injEq, List.append_cancel_left_eq] at hexpand'
  subst hexpand'
  rw [htrailer, Except.ok.injEq] at htrailer'
  exact ⟨htrailer', rfl⟩

/-- A member does not depend on what follows its trailer. -/
theorem Member.local (h : Member crc input out n o) (hinit : input.take n <+: input') :
    Member crc input' out n o := by
  obtain ⟨ts, trailerStart, hframe, hexpand, htrailer⟩ := member_iff.mp h
  have hn := (checkTrailer_ok_iff.mp htrailer).2.2.2
  exact member_iff.mpr ⟨ts, trailerStart, hframe.local (prefix_of_le (by omega) hinit), hexpand,
    checkTrailer_local htrailer hinit⟩

/-- Bytes before the history do not matter to a member that decodes. -/
theorem Member.append_history (older : List UInt8) (h : Member crc input out n o) :
    Member crc input (older ++ out) n o := by
  obtain ⟨ts, trailerStart, hframe, hexpand, htrailer⟩ := member_iff.mp h
  refine member_iff.mpr ⟨ts, trailerStart, hframe, ?_, htrailer⟩
  rw [expand_append_left older hexpand, List.append_assoc]

end Members

/-! ## Sequences of members -/

/-- The members of an input, each with the output so far as its history. -/
inductive Members (crc : Checksum) : List UInt8 → List UInt8 → List UInt8 → Prop
  | nil {out : List UInt8} : Members crc [] out []
  | cons {input out o os : List UInt8} {n : ℕ} (hmember : Member crc input out n o)
      (hrest : Members crc (input.drop n) (out ++ o) os) : Members crc input out (o ++ os)

section DecodeAll

variable {crc : Checksum} {input out o : List UInt8}

/-- Bytes before the history do not matter to members that decode. -/
theorem Members.append_history (older : List UInt8) (h : Members crc input out o) :
    Members crc input (older ++ out) o := by
  induction h with
  | nil => exact .nil
  | cons hmember _ ih =>
    rw [← List.append_assoc] at ih
    exact .cons (hmember.append_history older) ih

/-- The members of a concatenation are the members of its parts. -/
theorem Members.append {more : List UInt8} {o' : List UInt8} (h : Members crc input out o)
    (h' : Members crc more [] o') : Members crc (input ++ more) out (o ++ o') := by
  induction h with
  | @nil out =>
    have hmore := h'.append_history out
    rwa [List.append_nil] at hmore
  | @cons input out o os n hmember _ ih =>
    have hle := hmember.le_length.2
    rw [← List.drop_append_of_le_length hle] at ih
    rw [List.append_assoc]
    exact .cons (hmember.local ((List.take_prefix n input).trans (List.prefix_append _ _))) ih

/-- The loop over the members follows them. -/
theorem iterate_membersRound {fuel pos member : ℕ} {res : List UInt8} (hpos : pos ≤ input.length)
    (hfuel : input.length - pos < fuel) :
    Loop.iterate (.deflate .outOfFuel) (membersRound crc input) fuel ((pos, member), out) =
        .ok res ↔ ∃ o, Members crc (input.drop pos) out o ∧ res = out ++ o := by
  induction fuel generalizing pos member out with
  | zero => omega
  | succ fuel ih =>
    by_cases hend : pos < input.length
    swap
    · have hround : membersRound crc input ((pos, member), out) = .ok (.inr out) := by
        simp only [membersRound, if_neg hend]
      rw [Loop.iterate_break hround, List.drop_of_length_le (by omega), Except.ok.injEq]
      constructor
      · rintro rfl
        exact ⟨[], .nil, by simp⟩
      · rintro ⟨o, hmembers, rfl⟩
        cases hmembers with
        | nil => simp
        | cons hmember _ =>
          have hle := hmember.le_length
          rw [List.length_nil] at hle
          omega
    obtain ⟨hdec, -⟩ := decodesMember_decodeOneIndexed crc (input.drop pos) out member
    cases hres : decodeOneIndexed crc (input.drop pos) out member with
    | error e =>
      have hround : membersRound crc input ((pos, member), out) = .error e := by
        simp only [membersRound, if_pos hend, hres]
      rw [Loop.iterate_fail hround]
      apply iff_of_false (by simp)
      rintro ⟨o, hmembers, -⟩
      generalize hinput : input.drop pos = rest at hmembers hdec hres
      cases hmembers with
      | nil =>
        have hlen := congrArg List.length hinput
        rw [List.length_drop, List.length_nil] at hlen
        omega
      | @cons _ _ o _ n hmember _ =>
        have hok := (hdec n (out ++ o)).mpr ⟨o, hmember, rfl⟩
        rw [hres] at hok
        cases hok
    | ok r =>
      obtain ⟨consumed, res'⟩ := r
      obtain ⟨o, hmember, rfl⟩ := (hdec consumed res').mp hres
      obtain ⟨hpos', hle⟩ := hmember.le_length
      rw [List.length_drop] at hle
      have hround : membersRound crc input ((pos, member), out) =
          .ok (.inl ((pos + consumed, member + 1), out ++ o)) := by
        simp only [membersRound, if_pos hend, hres]
      rw [Loop.iterate_continue hround, ih (by omega) (by omega), ← List.drop_drop]
      constructor
      · rintro ⟨os, hmembers, rfl⟩
        exact ⟨o ++ os, .cons hmember hmembers, by rw [List.append_assoc]⟩
      · rintro ⟨os, hmembers, rfl⟩
        generalize input.drop pos = rest at hmembers hmember
        cases hmembers with
        | nil =>
          have hlen := hmember.le_length
          rw [List.length_nil] at hlen
          omega
        | cons hmember' hrest =>
          obtain ⟨rfl, rfl⟩ := hmember.unique hmember'
          exact ⟨_, hrest, by rw [List.append_assoc]⟩

/-- The decoder of all members follows them. -/
theorem decodeAll_iff {total : ℕ} {res : List UInt8} :
    decodeAll crc input out = .ok (total, res) ↔
      ∃ o, Members crc input out o ∧ res = out ++ o ∧ total = o.length := by
  have hrun (res : List UInt8) : Loop.iterate (.deflate .outOfFuel) (membersRound crc input)
      (input.length + 1) ((0, 0), out) = .ok res ↔
        ∃ o, Members crc input out o ∧ res = out ++ o := by
    rw [iterate_membersRound (Nat.zero_le _) (by omega), List.drop_zero]
  unfold decodeAll
  cases hres : Loop.iterate (.deflate .outOfFuel) (membersRound crc input) (input.length + 1)
      ((0, 0), out) with
  | error e =>
    apply iff_of_false (by simp)
    rintro ⟨o, hmembers, rfl, -⟩
    have hok := (hrun (out ++ o)).mpr ⟨o, hmembers, rfl⟩
    rw [hres] at hok
    cases hok
  | ok res' =>
    obtain ⟨o, hmembers, rfl⟩ := (hrun res').mp hres
    simp only [List.length_append, Nat.add_sub_cancel_left, Except.ok.injEq, Prod.mk.injEq]
    constructor
    · rintro ⟨rfl, rfl⟩
      exact ⟨o, hmembers, rfl, rfl⟩
    · rintro ⟨o', hmembers', rfl, rfl⟩
      have hok := (hrun (out ++ o')).mpr ⟨o', hmembers', rfl⟩
      rw [hres, Except.ok.injEq, List.append_cancel_left_eq] at hok
      subst hok
      exact ⟨rfl, rfl⟩

/-- Decoding a concatenation is decoding its parts, and what a decoder makes of a member
does not depend on the bytes after its trailer. -/
theorem decodeAll_append (crc : Checksum) :
    (∀ x y out a b : List UInt8, decodeAll crc x out = .ok (a.length, out ++ a) →
      decodeAll crc y [] = .ok (b.length, b) →
      decodeAll crc (x ++ y) out = .ok (a.length + b.length, out ++ (a ++ b))) ∧
    (∀ (x y out : List UInt8) (member trailerStart : ℕ) (ts : List Token),
      Frame x ts trailerStart → trailerStart + 8 ≤ x.length →
      (decodeOneIndexed crc (x ++ y) out member).toOption =
        (decodeOneIndexed crc x out member).toOption) := by
  constructor
  · intro x y out a b hx hy
    obtain ⟨a', hmembers, heq, -⟩ := decodeAll_iff.mp hx
    obtain rfl := List.append_cancel_left heq
    obtain ⟨b', hmembers', heq', -⟩ := decodeAll_iff.mp hy
    rw [List.nil_append] at heq'
    subst heq'
    exact decodeAll_iff.mpr ⟨a ++ b, hmembers.append hmembers', rfl, by rw [List.length_append]⟩
  · intro x y out member trailerStart ts hframe hroom
    obtain ⟨hx, -⟩ := decodesMember_decodeOneIndexed crc x out member
    obtain ⟨hxy, -⟩ := decodesMember_decodeOneIndexed crc (x ++ y) out member
    have hinit (n : ℕ) : x.take n <+: x ++ y :=
      (List.take_prefix n x).trans (List.prefix_append _ _)
    have hsame (n : ℕ) (o : List UInt8) :
        Member crc (x ++ y) out n o ↔ Member crc x out n o := by
      refine ⟨fun h => ?_, fun h => h.local (hinit n)⟩
      obtain ⟨ts', trailerStart', hframe', -, htrailer⟩ := member_iff.mp h
      obtain ⟨rfl, rfl⟩ := hframe'.unique (hframe.local (hinit _))
      have hn := (checkTrailer_ok_iff.mp htrailer).2.2.2
      apply h.local
      rw [List.take_append_of_le_length (by omega)]
      exact List.take_prefix n x
    have hiff (n : ℕ) (res : List UInt8) : decodeOneIndexed crc (x ++ y) out member = .ok (n, res) ↔
        decodeOneIndexed crc x out member = .ok (n, res) := by
      rw [hx, hxy]
      exact exists_congr fun o => and_congr_left fun _ => hsame n o
    cases hres : decodeOneIndexed crc x out member with
    | ok r =>
      rw [(hiff r.1 r.2).mpr hres]
    | error e =>
      cases hres' : decodeOneIndexed crc (x ++ y) out member with
      | error e' => rfl
      | ok r =>
        rw [(hiff r.1 r.2).mp hres'] at hres
        cases hres

/-- A member with one stored byte. -/
def storedMember : List UInt8 :=
  [0x1f, 0x8b, 8, 0, 0, 0, 0, 0, 0, 3, 1, 1, 0, 0xfe, 0xff, 65, 139, 158, 217, 211, 1, 0, 0, 0]

/-- Two members of a byte, behind each other. -/
theorem decodeAll_append_storedMember :
    decodeAll crc32 (storedMember ++ storedMember) [] = .ok (2, [65, 65]) ∧
      (decodeOneIndexed crc32 (storedMember ++ storedMember) [] 0).toOption =
        (decodeOneIndexed crc32 storedMember [] 0).toOption := by
  obtain ⟨happend, hfollow⟩ := decodeAll_append crc32
  have hall : decodeAll crc32 storedMember [] = .ok (1, [65]) := by decide +kernel
  have hone : decodeOneIndexed crc32 storedMember [] 0 = .ok (24, [65]) := by decide +kernel
  obtain ⟨o, hmember, -⟩ :=
    ((decodesMember_decodeOneIndexed crc32 storedMember [] 0).1 24 [65]).mp hone
  obtain ⟨ts, trailerStart, hframe, -, htrailer⟩ := member_iff.mp hmember
  exact ⟨happend storedMember storedMember [] [65] [65] hall hall,
    hfollow storedMember storedMember [] 0 trailerStart ts hframe
      (checkTrailer_ok_iff.mp htrailer).1⟩

end DecodeAll

/-! ## The bytes before a member -/

/-- What a call makes of a member: the consumed length and the appended bytes, or nothing if
it fails. -/
def outcome (out : List UInt8) (r : Except GzipError (ℕ × List UInt8)) :
    Option (ℕ × List UInt8) :=
  r.toOption.map fun r => (r.1, r.2.drop out.length)

/-- The bytes that are in the output already make no difference. -/
def Isolated (decode : List UInt8 → Except GzipError (ℕ × List UInt8)) : Prop :=
  ∀ p q, outcome p (decode p) = outcome q (decode q)

/-- The copies of the member stay within its own bytes, or whatever they bring in from
outside fails to match the trailer. -/
def OwnHistory (crc : Checksum) (input : List UInt8) : Prop :=
  ∀ ts trailerStart, Frame input ts trailerStart →
    (∃ o, expand id [] ts = some o) ∨
      ∀ history o n, expand id history ts = some (history ++ o) →
        checkTrailer crc input trailerStart o 0 ≠ .ok n

section Isolation

variable {crc : Checksum} {input : List UInt8}

/-- The outcome of a decoder is the member. -/
theorem outcome_eq_some_iff {out o : List UInt8} {n : ℕ} {r : Except GzipError (ℕ × List UInt8)}
    (h : DecodesMember crc input out r) :
    outcome out r = some (n, o) ↔ Member crc input out n o := by
  cases r with
  | error e =>
    refine iff_of_false (by simp [outcome, Except.toOption]) fun hmember => ?_
    have hok := (h.1 n (out ++ o)).mpr ⟨o, hmember, rfl⟩
    cases hok
  | ok r =>
    obtain ⟨n', res⟩ := r
    obtain ⟨o', hmember', rfl⟩ := (h.1 n' res).mp rfl
    simp only [outcome, Except.toOption, Option.map_some, List.drop_left, Option.some.injEq,
      Prod.mk.injEq]
    constructor
    · rintro ⟨rfl, rfl⟩
      exact hmember'
    · intro hmember
      exact hmember'.unique hmember

/-- A decoder of members keeps a member apart from the output before it exactly where the
member does so itself. -/
theorem isolated_iff {decode : List UInt8 → Except GzipError (ℕ × List UInt8)}
    (h : ∀ out, DecodesMember crc input out (decode out)) :
    Isolated decode ↔ OwnHistory crc input := by
  have hiff : Isolated decode ↔
      ∀ p q n o, Member crc input p n o → Member crc input q n o := by
    constructor
    · intro hsame p q n o hmember
      rw [← outcome_eq_some_iff (h q), ← hsame p q, outcome_eq_some_iff (h p)]
      exact hmember
    · intro hsame p q
      refine Option.ext fun r => ?_
      rw [outcome_eq_some_iff (h p), outcome_eq_some_iff (h q)]
      exact ⟨hsame p q r.1 r.2, hsame q p r.1 r.2⟩
  rw [hiff]
  constructor
  · intro hsame ts trailerStart hframe
    by_cases hown : ∃ o, expand id [] ts = some o
    · exact Or.inl hown
    · refine Or.inr fun history o n hexpand htrailer => hown ?_
      have hmember := hsame history [] n o
        (member_iff.mpr ⟨ts, trailerStart, hframe, hexpand, htrailer⟩)
      obtain ⟨ts', _, hframe', hexpand', -⟩ := member_iff.mp hmember
      obtain ⟨rfl, -⟩ := hframe.unique hframe'
      exact ⟨_, hexpand'⟩
  · intro hown p q n o hmember
    obtain ⟨ts, trailerStart, hframe, hexpand, htrailer⟩ := member_iff.mp hmember
    rcases hown ts trailerStart hframe with ⟨o', ho'⟩ | hnone
    · have hp := expand_append_left p ho'
      rw [List.append_nil, hexpand, Option.some.injEq, List.append_cancel_left_eq] at hp
      subst hp
      have hq := expand_append_left q ho'
      rw [List.append_nil] at hq
      exact member_iff.mpr ⟨ts, trailerStart, hframe, hq, htrailer⟩
    · exact absurd htrailer (hnone p o n hexpand)

/-- The three member decoders decode a member in isolation exactly where its copies stay in
it, or match no trailer. -/
theorem memberDecoders_isolated_iff (crc : Checksum) (input : List UInt8) (member : ℕ) :
    (Isolated (fun out => decodeOneIndexed crc input out member) ↔ OwnHistory crc input) ∧
    (Isolated (fun out => decodeOneIndexedFast crc input out member) ↔ OwnHistory crc input) ∧
    (Isolated (fun out => decodeOneIndexedSafe crc input out member) ↔ OwnHistory crc input) :=
  ⟨isolated_iff fun out => decodesMember_decodeOneIndexed crc input out member,
    isolated_iff fun out => decodesMember_decodeOneIndexedFast crc input out member,
    isolated_iff fun out => decodesMember_decodeOneIndexedSafe crc input out member⟩

/-- A member of one copy, from the byte before it. -/
def copyMember : List UInt8 :=
  [0x1f, 0x8b, 8, 0, 0, 0, 0, 0, 0, 3, 0x03, 0x02, 0x00, 167, 49, 160, 102, 3, 0, 0, 0]

/-- None of the decoders isolates a member that copies from the one before it. -/
theorem copyMember_not_isolated :
    ¬Isolated (fun out => decodeOneIndexed crc32 copyMember out 0) ∧
    ¬Isolated (fun out => decodeOneIndexedFast crc32 copyMember out 0) ∧
    ¬Isolated (fun out => decodeOneIndexedSafe crc32 copyMember out 0) := by
  refine ⟨fun h => ?_, fun h => ?_, fun h => ?_⟩
  · have hsame := h [65] []
    revert hsame
    decide +kernel
  · have hsame := h [65] []
    revert hsame
    decide +kernel
  · have hsame := h [65] []
    revert hsame
    decide +kernel

end Isolation

end Gzip

end RustyRapidgzip
