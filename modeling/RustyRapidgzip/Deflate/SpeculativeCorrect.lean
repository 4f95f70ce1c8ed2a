import RustyRapidgzip.Deflate.Onto

/-!
# Speculative decoding is decoding with history

The window kernel decodes the same tokens as the byte kernels, expanded behind the
unknown history. Once the last 32 KiB hold bytes only, so does everything after them, and
the byte kernel can go on. Resolving the chunk against the last 32 KiB of a history then
gives what plain decoding gives after that history.
-/

namespace RustyRapidgzip

open LsbBits Reference HuffmanDecoder Lz

/-- The part of a history that copies can reach. -/
def lastWindow (history : List UInt8) : List UInt8 := history.drop (history.length - U16_WINDOW)

/-- The last window is no longer than the window. -/
theorem lastWindow_length_le (history : List UInt8) : (lastWindow history).length ≤ U16_WINDOW := by
  rw [lastWindow, List.length_drop]
  omega

namespace Speculative

variable {input : List UInt8} {lit dist : HuffmanDecoder} {lits dists : List ℕ} {br : BitReader}
  {bs rest : List Bool} {w : Window} {out : List ℕ}

/-! ## The symbol loop -/

/-- An entry whose code is the next one and has been consumed. -/
def Loaded (input : List UInt8) (lits : List ℕ) (entry : ℕ) (br : BitReader) (bs : List Bool) :
    Prop :=
  ∃ sym rest, Canonical.decode lits 15 bs = some (sym, rest) ∧
    entry = encodeEntry sym (lits.getD sym 0) .litLen ∧ br.At input rest

/-- The bits and the output a state stands for. -/
structure Inv (input : List UInt8) (lits : List ℕ) (s : State) (bs : List Bool) (out : List ℕ) :
    Prop where
  behind : s.window.Behind out
  top : s.loaded = none → s.br.At input bs
  loaded : ∀ entry, s.loaded = some entry →
    s.window.cur < U16_FLUSH_AT ∧ Loaded input lits entry s.br bs

/-- The remaining bits, counting the step that loads an entry. -/
def measure (s : State) (bs : List Bool) : ℕ :=
  2 * bs.length + if s.loaded = none then 1 else 0

/-- What the loop's steps are shown to do. -/
abbrev Follows (input : List UInt8) (lits dists : List ℕ) (bound : ℕ) (bs : List Bool)
    (out : List ℕ) : Except DeflateError (State ⊕ (Window × BitReader)) → Prop :=
  RoundFollows 0 48 lits dists UInt8.toNat (Inv input lits) (Stands Window.Behind input) measure
    bound bs out

/-- The windows that a copy starts from. -/
def Open (w : Window) (out : List ℕ) : Prop := w.Behind out ∧ w.cur < U16_FLUSH_AT

/-- A match in the window is the copy behind the cells. -/
theorem resolves_backReference : Resolves Open Window.Behind Window.backReference := by
  rintro w _ d n ⟨⟨cells, rfl, hholds⟩, hcur⟩ hbounds
  obtain ⟨w', hok, hbehind⟩ := hholds.backReference hcur hbounds
  refine Or.inl ⟨?_, w', hok, hbehind⟩
  obtain ⟨-, -, -, hmax⟩ := hbounds
  have hwindow : MAX_DISTANCE = U16_WINDOW := rfl
  rw [List.length_append, markerPrefix_length]
  omega

/-- The top of the loop refills, flushes and loads. -/
theorem follows_load (hlit : lit.Implements lits .litLen) (hbehind : w.Behind out)
    (hat : br.At input bs) :
    Follows input lits dists (measure ⟨none, w, br⟩ bs) bs out (round lit dist ⟨none, w, br⟩) := by
  obtain ⟨cells, rfl, hholds⟩ := hbehind
  obtain ⟨hflushed, hcur⟩ := hholds.flushFull
  unfold round
  simp only
  rcases hat.refillKernel with ⟨-, br₁, hok, hat₁, hbits₁⟩ | ⟨hlt, herr⟩
  swap
  · simp only [herr]
    refine ⟨by simp, fun r res hdec => ?_⟩
    have := hdec.room_le
    omega
  simp only [hok]
  rcases hlit.lookupFilled_cases (hat₁.holds hbits₁) (by decide) with
    ⟨sym, rest, br₂, hdec, -, -, hlook, hat₂, -⟩ | ⟨hdec, hlook⟩
  · simp only [hlook]
    refine ⟨[], bs, _, .nil, rfl, ⟨⟨cells, rfl, hflushed⟩, by simp, ?_⟩, by simp [measure]⟩
    rintro entry ⟨⟩
    exact ⟨hcur, sym, rest, hdec, rfl, hat₂⟩
  · simp only [hlook]
    refine ⟨by simp, fun _ _ => not_decodes_of_readToken ?_⟩
    rw [readToken, hdec]
    rfl

/-- What preloading leaves. -/
theorem inv_preloadNext (hlit : lit.Implements lits .litLen) (hbehind : w.Behind out)
    (hat : br.At input bs) : Inv input lits (preloadNext lit w br) bs out := by
  have htop : Inv input lits ⟨none, w, br⟩ bs out := ⟨hbehind, fun _ => hat, by simp⟩
  unfold preloadNext
  by_cases hlow : br.bits < 15 ∨ U16_FLUSH_AT ≤ w.cur
  · rw [if_pos hlow]
    exact htop
  rw [if_neg hlow]
  simp only
  have h10 : LUT_BITS = 10 := rfl
  rw [hat.peek_eq (by omega)]
  rcases hlit.lut_cases bs (by
    obtain ⟨p, hr, rfl⟩ := hat.reads
    have hpos := hr.pos_le
    simp
    omega) with ⟨sym, hdec, hle, hpos, hlut⟩ | ⟨-, hlut⟩
  · rw [hlut, encodeEntry_length sym .litLen (Nat.le_trans hle (by decide)), if_neg (by omega)]
    refine ⟨hbehind, by simp, ?_⟩
    rintro entry ⟨⟩
    exact ⟨by simp only; omega, sym, _, hdec, rfl,
      ((hat.holds (n := LUT_BITS) (by omega)).consume hle hpos).1⟩
  · rw [hlut, if_pos (by simp)]
    exact htop

/-- A push appends a cell. -/
theorem behind_push (hbehind : w.Behind out) (hcur : w.cur < U16_FLUSH_AT) (cell : ℕ) :
    (w.push cell).Behind (out ++ [cell]) := by
  obtain ⟨cells, rfl, hholds⟩ := hbehind
  exact ⟨cells ++ [cell], by rw [List.append_assoc], hholds.push hcur cell⟩

/-- A literal of the run. -/
theorem follows_literal (hlen : lits.length ≤ 288) (hlit : lit.Implements lits .litLen)
    (hbehind : w.Behind out) (hcur : w.cur < U16_FLUSH_AT) {sym bound : ℕ}
    (hdec : Canonical.decode lits 15 bs = some (sym, rest)) (hat : br.At input rest)
    (hliteral : encodeEntry sym (lits.getD sym 0) .litLen &&& HUFFDEC_LITERAL ≠ 0)
    (hbound : 2 * bs.length ≤ bound) :
    Follows input lits dists bound bs out
      (.ok (.inl (preloadNext lit
        (w.push ((encodeEntry sym (lits.getD sym 0) .litLen >>> 16) &&& 0xff)) br))) := by
  obtain ⟨hlt, -, hle, -⟩ := Canonical.decode_some hdec
  have htoken := readToken_literal dists (by omega) hle hdec hliteral
  have hshort := readToken_length htoken
  generalize encodeEntry sym (lits.getD sym 0) .litLen >>> 16 = c at htoken ⊢
  have hcell : (UInt8.ofNat c).toNat = c &&& 0xff := by
    rw [UInt8.toNat_ofNat', show (0xff : ℕ) = 2 ^ 8 - 1 from rfl, Nat.and_two_pow_sub_one_eq_mod]
  have hinv := inv_preloadNext hlit (behind_push hbehind hcur (c &&& 0xff)) hat
  refine ⟨_, rest, _, Steps.single htoken, ?_, hinv, ?_⟩
  · rw [expand_cons, expandToken, hcell]
    rfl
  · have hmeasure : measure (preloadNext lit (w.push (c &&& 0xff)) br) rest ≤
        2 * rest.length + 1 := by
      unfold measure
      split <;> omega
    omega

/-- A loaded entry that is no literal. -/
theorem follows_symbol (hdist : dist.Implements dists .dist)
    (hbehind : w.Behind out) (hcur : w.cur < U16_FLUSH_AT) (hlen : lits.length ≤ 288) {sym : ℕ}
    (hdec : Canonical.decode lits 15 bs = some (sym, rest)) (hat : br.At input rest)
    (hliteral : encodeEntry sym (lits.getD sym 0) .litLen &&& HUFFDEC_LITERAL = 0) :
    Follows input lits dists (2 * bs.length) bs out
      (round lit dist ⟨some (encodeEntry sym (lits.getD sym 0) .litLen), w, br⟩) := by
  obtain ⟨hlt, -, hle, -⟩ := Canonical.decode_some hdec
  have hentry := litLen_entry (show sym < 2 ^ 15 by omega) hle
  have htoken := readToken_eq dists hdec
  unfold round
  simp only
  rw [if_neg (not_not.mpr hliteral)]
  cases hsym : litLen sym with
  | literal b =>
    rw [hsym] at hentry
    exact absurd hliteral hentry.1
  | endOfBlock =>
    rw [hsym] at hentry htoken
    rw [if_pos hentry.2.1, if_pos hentry.2.2]
    exact ⟨rest, out, ⟨[], .stop htoken (Nat.zero_le _), rfl⟩, hbehind, hat⟩
  | reserved =>
    rw [hsym] at hentry htoken
    rw [if_pos hentry.2.1, if_neg hentry.2.2]
    exact ⟨by simp, fun _ _ => not_decodes_of_readToken htoken⟩
  | length base extra =>
    rw [hsym] at hentry
    obtain ⟨-, hexc, hbase, hextra⟩ := hentry
    obtain ⟨-, -, hextra5, -⟩ := litLen_length_bounds hsym
    rw [if_neg (not_not.mpr hexc)]
    rcases refillIf_cases hat (c := br.bits < 33) (n := 33) (by decide) (by omega) with
      ⟨br₁, hok, hat₁, hbits₁⟩ | ⟨herr, hroom⟩
    swap
    · simp only [herr]
      refine ⟨by simp, fun r res hdecodes => ?_⟩
      cases hread : readBits extra rest with
      | none =>
        rw [hsym] at htoken
        simp only [bind, hread, Option.bind_none] at htoken
        exact not_decodes_of_readToken htoken hdecodes
      | some q =>
        obtain ⟨v, mid⟩ := q
        have hle := readBits_length hread
        exact not_decodes_of_length hdec hsym hread (by omega) hdecodes
    obtain ⟨v, br₂, hread, htake, hat₂, hbits₂⟩ := hat₁.takeExtra base extra (by omega)
    simp only [hok, lengthOf, hbase, hextra, htake]
    rcases copyMatch_cases (f := UInt8.toNat) resolves_backReference hdist hdec hsym hread hat₂
      (by omega) ⟨hbehind, hcur⟩ with
      ⟨w', br₃, t, mid, out', hcopy, htoken', hexpand, hbehind', hat₃⟩ | ⟨e, herr, he, hnone⟩
    · simp only [hcopy]
      have hshort := readToken_length htoken'
      exact ⟨[t], mid, out', Steps.single htoken', by rw [expand_cons, hexpand]; rfl,
        ⟨hbehind', fun _ => hat₃, by simp⟩, by simp only [measure, if_true]; omega⟩
    · simp only [herr]
      exact ⟨he, hnone 48⟩

/-- Every step of the loop follows the tokens. -/
theorem follows_round (hlen : lits.length ≤ 288) (hlit : lit.Implements lits .litLen)
    (hdist : dist.Implements dists .dist) (s : State) (bs : List Bool) (out : List ℕ)
    (hinv : Inv input lits s bs out) :
    Follows input lits dists (measure s bs) bs out (round lit dist s) := by
  obtain ⟨loaded, w, br⟩ := s
  cases loaded with
  | none => exact follows_load hlit hinv.behind (hinv.top rfl)
  | some entry =>
    obtain ⟨hbehind, -, hloaded⟩ := hinv
    obtain ⟨hcur, sym, rest, hdec, rfl, hat⟩ := hloaded entry rfl
    by_cases hliteral : encodeEntry sym (lits.getD sym 0) .litLen &&& HUFFDEC_LITERAL ≠ 0
    · have hround : round lit dist ⟨some (encodeEntry sym (lits.getD sym 0) .litLen), w, br⟩ =
          .ok (.inl (preloadNext lit
            (w.push ((encodeEntry sym (lits.getD sym 0) .litLen >>> 16) &&& 0xff)) br)) := by
        unfold round
        simp only
        rw [if_pos hliteral]
      rw [hround]
      exact follows_literal hlen hlit hbehind hcur hdec hat hliteral (by simp [measure])
    · exact follows_symbol hdist hbehind hcur hlen hdec hat (not_not.mp hliteral)

/-- The window kernel decodes every block body that leaves it 48 bits, and only block
bodies. -/
theorem loopFollows_decodeCompressedU16 (hlen : lits.length ≤ 288)
    (hlit : lit.Implements lits .litLen) (hdist : dist.Implements dists .dist)
    (hbehind : w.Behind out) (hat : br.At input bs) :
    LoopFollows 0 48 lits dists UInt8.toNat (Stands Window.Behind input) bs out
      (decodeCompressedU16 lit dist w br) := by
  have hle := hat.length_le
  refine loopFollows_iterate (Inv input lits) measure (follows_round hlen hlit hdist)
    ⟨hbehind, fun _ => hat, by simp⟩ ?_
  simp only [measure, if_true]
  rw [hat.input_eq]
  omega

/-! ## Stored blocks -/

/-- Bytes are read one part after the other. -/
theorem readBytes_add (n m : ℕ) (bs : List Bool) :
    readBytes (n + m) bs = readBytes n bs >>= fun r =>
      readBytes m r.2 >>= fun r' => some (r.1 ++ r'.1, r'.2) := by
  induction n generalizing bs with
  | zero =>
    rw [Nat.zero_add, readBytes]
    simp only [bind, Option.bind_some]
    cases readBytes m bs <;> rfl
  | succ n ih =>
    rw [show n + 1 + m = n + m + 1 by omega, readBytes, readBytes]
    cases readBits 8 bs with
    | none => rfl
    | some r =>
      simp only [bind, Option.bind_some, ih]
      cases readBytes n r.2 with
      | none => rfl
      | some q =>
        simp only [Option.bind_some]
        cases readBytes m q.2 <;> rfl

/-- Reading bytes into the window. -/
theorem agrees_readCells {n : ℕ} (hbehind : w.Behind out) (hroom : w.cur + n ≤ U16_FLUSH_AT)
    (hat : br.At input bs) :
    Agrees 0 input (fun w' data => w'.Behind (out ++ data.map UInt8.toNat))
      (readCells n w br) (readBytes n bs) := by
  induction n generalizing w out br bs with
  | zero =>
    refine Agrees.pure ?_ hat
    simpa using hbehind
  | succ n ih =>
    unfold readCells readBytes
    apply Agrees.bindExact (hat.agrees_read (n := 8) (by decide))
    rintro b _ br₁ bs₁ rfl hat₁ hread
    have hb := readBits_lt hread
    have hcell : (UInt8.ofNat b).toNat = b := by
      rw [UInt8.toNat_ofNat']
      omega
    have hnext := ih (behind_push hbehind (by omega) b)
      (by rw [show (w.push b).cur = w.cur + 1 from rfl]; omega) hat₁
    refine Agrees.mapRef hnext fun w' data hdata => ?_
    rwa [List.map_cons, hcell, ← List.singleton_append, ← List.append_assoc]

/-- A flush of a full window keeps the cells, and leaves it open. -/
theorem behind_flushFull (hbehind : w.Behind out) :
    w.flushFull.Behind out ∧ w.flushFull.cur < U16_FLUSH_AT := by
  obtain ⟨cells, rfl, hholds⟩ := hbehind
  obtain ⟨hflushed, hcur⟩ := hholds.flushFull
  exact ⟨⟨cells, rfl, hflushed⟩, hcur⟩

/-- Copying a stored block's data, window by window. -/
theorem agrees_storedCells {rounds remaining : ℕ} (hrounds : remaining ≤ rounds)
    (hbehind : w.Behind out) (hat : br.At input bs) :
    Agrees 0 input (fun w' data => w'.Behind (out ++ data.map UInt8.toNat))
      (storedCells rounds remaining w br) (readBytes remaining bs) := by
  induction rounds generalizing remaining w out br bs with
  | zero =>
    obtain rfl : remaining = 0 := by omega
    refine Agrees.pure ?_ hat
    simpa using hbehind
  | succ rounds ih =>
    unfold storedCells
    by_cases hzero : remaining = 0
    · rw [if_pos hzero, hzero]
      refine Agrees.pure ?_ hat
      simpa using hbehind
    rw [if_neg hzero]
    obtain ⟨hbehind', hcur⟩ := behind_flushFull hbehind
    obtain ⟨take, htake⟩ : ∃ take, min remaining (U16_FLUSH_AT - w.flushFull.cur) = take := ⟨_, rfl⟩
    simp only [htake]
    rw [show remaining = take + (remaining - take) by omega, readBytes_add,
      Nat.add_sub_cancel_left]
    apply Agrees.bindExact (agrees_readCells hbehind' (by omega) hat)
    rintro w₁ data br₁ bs₁ hbehind₁ hat₁ -
    refine Agrees.mapRef (ih (by omega) hbehind₁ hat₁) fun w' more hmore => ?_
    rwa [List.map_append, ← List.append_assoc]

/-- A stored block appends the reference's data. -/
theorem agrees_decodeStoredU16 (hbehind : w.Behind out) (hat : br.At input bs) :
    Agrees 0 input (fun w' data => w'.Behind (out ++ data.map UInt8.toNat))
      (decodeStoredU16 w br) (readStored bs) := by
  unfold decodeStoredU16 readStored
  apply Agrees.bindExact (hat.byteAlign.agrees_read (n := 16) (by decide))
  rintro len _ br₁ bs₁ rfl hat₁ hlen
  apply Agrees.bindExact (hat₁.agrees_read (n := 16) (by decide))
  rintro nlen _ br₂ bs₂ rfl hat₂ -
  have hiff := complement_iff nlen (readBits_lt hlen)
  simp only
  by_cases hsum : len + nlen = 65535
  · rw [if_neg (not_not.mpr (hiff.mpr hsum)), if_pos hsum]
    exact agrees_storedCells le_rfl hbehind hat₂
  · rw [if_pos (fun h => hsum (hiff.mp h)), if_neg hsum]
    exact Agrees.fail (by simp)

/-! ## Blocks -/

/-- What a decoded block of cells stands for. -/
def DoneBlock (input : List UInt8) (t : (Bool × Window) × BitReader) (f : Bool)
    (rest : List Bool) (res : List ℕ) : Prop :=
  t.1.1 = f ∧ t.1.2.Behind res ∧ t.2.At input rest

/-- The window kernel decodes the reference's blocks. -/
theorem blockFollows_decodeOneBlockU16 (hbehind : w.Behind out) (hat : br.At input bs) :
    BlockFollows 0 48 UInt8.toNat (DoneBlock input) bs out (decodeOneBlockU16 w br) := by
  refine blockFollows_of_contents BitReader.read
    (fun btype br => decodeBlockU16 btype w br) (fun bfinal r => ((bfinal != 0, r.1), r.2))
    (fun n _ _ _ hn hat => hat.agrees_read (by omega)) (fun btype br bs hat => ?_)
    (fun bfinal r rest res (hdone : Stands Window.Behind input r rest res) =>
      ⟨rfl, hdone.1, hdone.2⟩) hat
  unfold decodeBlockU16
  by_cases hstored : btype = 0
  · rw [if_pos hstored]
    subst btype
    exact contentsFollows_stored (agrees_decodeStoredU16 hbehind hat)
  · rw [if_neg hstored]
    apply contentsFollows_compressed hstored (agrees_blockTrees btype hat) (by decide)
    rintro ⟨lit, dist⟩ lits dists br rest ⟨hlit, hdist⟩ hat hlen
    exact loopFollows_decodeCompressedU16 hlen hlit hdist hbehind hat

/-- Blocks lead from one output to another: the runs of blocks after them are the runs that
begin with them. -/
def Reaches (stop : List Bool → Bool) (bs : List Bool) (out : List ℕ) (mid : List Bool)
    (out' : List ℕ) : Prop :=
  ∀ f rest res,
    (BlocksDecode 0 stop UInt8.toNat mid out' f rest res →
      BlocksDecode 0 stop UInt8.toNat bs out f rest res) ∧
    (BlocksDecode 48 stop UInt8.toNat bs out f rest res →
      BlocksDecode 48 stop UInt8.toNat mid out' f rest res)

/-- What the speculative blocks return. -/
def Phase1Spec (input : List UInt8) (stop : List Bool → Bool) (bs : List Bool) (out : List ℕ) :
    Except DeflateError ((Option Bool × Window) × BitReader) → Prop
  | .error e => e ≠ .outOfFuel ∧ ∀ f rest res, ¬BlocksDecode 48 stop UInt8.toNat bs out f rest res
  | .ok ((some f, w), br) => ∃ rest res, BlocksDecode 0 stop UInt8.toNat bs out f rest res ∧
      w.Behind res ∧ br.At input rest
  | .ok ((none, w), br) => ∃ mid res, Reaches stop bs out mid res ∧ w.Behind res ∧
      br.At input mid ∧ markerFree w = true ∧ ∀ c ∈ res, IsCell c

/-- The loop of the first phase follows the blocks up to where it stops. -/
theorem phase1Spec_iterate (endBitHint : ℕ) {fuel : ℕ} (hbehind : w.Behind out)
    (hcells : ∀ c ∈ out, IsCell c) (hat : br.At input bs) (hfuel : bs.length < fuel) :
    Phase1Spec input (stopAt input endBitHint) bs out
      (Loop.iterate .outOfFuel (phase1Round endBitHint) fuel (w, br)) := by
  induction fuel generalizing w out br bs with
  | zero => omega
  | succ fuel ih =>
    have hblock := blockFollows_decodeOneBlockU16 hbehind hat
    cases hres : decodeOneBlockU16 w br with
    | error e =>
      have hround : phase1Round endBitHint (w, br) = .error e := by simp only [phase1Round, hres]
      rw [hres] at hblock
      rw [Loop.iterate_fail hround]
      refine ⟨hblock.1, fun f rest res hdec => ?_⟩
      obtain ⟨f₁, mid, out', hfirst, -⟩ := hdec.cases
      exact hblock.2 f₁ mid out' hfirst
    | ok r =>
      obtain ⟨⟨f, w₁⟩, br₁⟩ := r
      rw [hres] at hblock
      obtain ⟨_, mid, out', hdec, rfl, hbehind₁, hat₁⟩ := hblock
      simp only at hdec hbehind₁ hat₁
      have hstop := stopAt_eq endBitHint hat₁
      obtain ⟨ts, hblk, hts⟩ := hdec
      have hcells₁ := expand_forall (P := IsCell) (fun b => Or.inl (UInt8.toNat_lt b)) hcells hts
      cases f with
      | true =>
        have hround : phase1Round endBitHint (w, br) = .ok (.inr ((some true, w₁), br₁)) := by
          simp only [phase1Round, hres, if_true]
        rw [Loop.iterate_break hround]
        exact ⟨mid, out', ⟨ts, .final hblk, hts⟩, hbehind₁, hat₁⟩
      | false =>
        by_cases hhint : endBitHint ≤ br₁.tellBit
        · have hround : phase1Round endBitHint (w, br) =
              .ok (.inr ((some false, w₁), br₁)) := by
            simp [phase1Round, hres, hhint]
          rw [Loop.iterate_break hround]
          exact ⟨mid, out', ⟨ts, .stop hblk (by rw [← hstop]; exact decide_eq_true hhint), hts⟩,
            hbehind₁, hat₁⟩
        rw [decide_eq_false hhint] at hstop
        by_cases hfree : markerFree w₁ = true
        · have hround : phase1Round endBitHint (w, br) = .ok (.inr ((none, w₁), br₁)) := by
            simp [phase1Round, hres, hhint, hfree]
          rw [Loop.iterate_break hround]
          exact ⟨mid, out', fun f rest res =>
            ⟨BlockDecodes.more ⟨ts, hblk, hts⟩ hstop.symm,
              BlockDecodes.tail ⟨ts, hblk, hts⟩ hstop.symm⟩,
            hbehind₁, hat₁, hfree, hcells₁⟩
        · have hround : phase1Round endBitHint (w, br) = .ok (.inl (w₁, br₁)) := by
            simp [phase1Round, hres, hhint, hfree]
          have hlt := hblk.length_lt
          have hrest := ih hbehind₁ hcells₁ hat₁ (by omega)
          rw [Loop.iterate_continue hround]
          revert hrest
          generalize Loop.iterate .outOfFuel (phase1Round endBitHint) fuel (w₁, br₁) = res
          rcases res with e | ⟨⟨ended, w₂⟩, br₂⟩
          · rintro ⟨he, hnone⟩
            exact ⟨he, fun f rest res hdec =>
              hnone f rest res (BlockDecodes.tail ⟨ts, hblk, hts⟩ hstop.symm hdec)⟩
          cases ended with
          | some f =>
            rintro ⟨rest, res, hdec, hdone⟩
            exact ⟨rest, res, BlockDecodes.more ⟨ts, hblk, hts⟩ hstop.symm hdec, hdone⟩
          | none =>
            rintro ⟨mid', res, hreaches, hdone⟩
            refine ⟨mid', res, fun f rest res' => ⟨fun h => ?_, fun h => ?_⟩, hdone⟩
            · exact BlockDecodes.more ⟨ts, hblk, hts⟩ hstop.symm ((hreaches f rest res').1 h)
            · exact (hreaches f rest res').2 (BlockDecodes.tail ⟨ts, hblk, hts⟩ hstop.symm h)

/-! ## The hand-off -/

/-- Cells without a marker are their bytes. -/
theorem map_toNat_narrow {cells : List ℕ} (hcells : ∀ c ∈ cells, IsCell c)
    (hfree : ∀ c ∈ cells, c &&& MARKER16 = 0) : (cells.map narrow).map UInt8.toNat = cells := by
  rw [List.map_map]
  refine (List.map_congr_left fun c hc => ?_).trans (List.map_id _)
  exact toNat_narrow (hcells c hc) (hfree c hc)

/-- At the hand-off the last 32 KiB are bytes. -/
theorem markerFree_split {cells : List ℕ} (hholds : w.Holds cells)
    (hcells : ∀ c ∈ cells, IsCell c) (hfree : markerFree w = true) :
    ∃ (front : List ℕ) (last : List UInt8), cells = front ++ last.map UInt8.toNat ∧
      U16_WINDOW ≤ last.length := by
  have hlen := hholds.length_eq
  simp only [markerFree, Bool.and_eq_true, decide_eq_true_eq, List.all_eq_true, List.mem_range,
    beq_iff_eq] at hfree
  obtain ⟨hcur, hclean⟩ := hfree
  have hhandoff : U16_HANDOFF_AT = 2 * U16_WINDOW := rfl
  refine ⟨cells.take (cells.length - U16_WINDOW),
    (cells.drop (cells.length - U16_WINDOW)).map narrow,
    ?_, by rw [List.length_map, List.length_drop]; omega⟩
  rw [map_toNat_narrow (fun c hc => hcells c (List.mem_of_mem_drop hc)), List.take_append_drop]
  intro c hc
  obtain ⟨i, hi, rfl⟩ := List.mem_iff_getElem.mp hc
  rw [List.length_drop] at hi
  have hlive := hholds.live (w.cur - U16_WINDOW + i) (by omega)
  rw [show w.windowBase + (w.cur - U16_WINDOW + i) = cells.length - U16_WINDOW + i by omega,
    List.getElem?_eq_getElem (by omega), Option.some.injEq] at hlive
  rw [List.getElem_drop, hlive]
  exact hclean i (by omega)

/-- Past 32 KiB of bytes, the byte kernel and the window kernel append the same bytes. -/
theorem expand_handoff (front : List ℕ) {last : List UInt8} (hlast : U16_WINDOW ≤ last.length)
    {ts : List Token} (hts : ∀ t ∈ ts, CopyBounds t) :
    ∃ more : List UInt8,
      expand id (front.map narrow ++ last) ts = some (front.map narrow ++ last ++ more) ∧
      expand UInt8.toNat (markerPrefix ++ (front ++ last.map UInt8.toNat)) ts =
        some (markerPrefix ++ (front ++ last.map UInt8.toNat ++ more.map UInt8.toNat)) := by
  obtain ⟨res, hres⟩ := expand_isSome id (fun t ht => (hts t ht).bounded) hlast
  obtain ⟨more, rfl⟩ := expand_extends hres
  have hmap := map_expand UInt8.toNat id last ts
  rw [hres, Option.map_some, List.map_append] at hmap
  refine ⟨more, ?_, ?_⟩
  · rw [expand_append_left _ hres, List.append_assoc]
  · have h := expand_append_left (markerPrefix ++ front) hmap.symm
    simpa only [List.append_assoc, id] using h

/-- What speculative decoding returns. -/
def UntilSpec (input : List UInt8) (startBit endBitHint : ℕ) :
    Except DeflateError ((ℕ × Bool) × SpeculativeChunk) → Prop
  | .error e => e ≠ .outOfFuel ∧ ∀ f ts rest, startBit ≤ 8 * input.length →
      ¬Blocks 48 (stopAt input endBitHint) ((bits input).drop startBit) f ts rest
  | .ok ((e, f), chunk) => startBit ≤ 8 * input.length ∧ ∃ ts rest cells,
      Blocks 0 (stopAt input endBitHint) ((bits input).drop startBit) f ts rest ∧
      e + rest.length = 8 * input.length ∧
      expand UInt8.toNat markerPrefix ts = some (markerPrefix ++ cells) ∧ chunk = chunkOf cells

/-- What speculative decoding returns when it is given a chunk of cells. -/
def UntilSpecOnto (input : List UInt8) (startBit endBitHint : ℕ) (pre : List ℕ) :
    Except DeflateError ((ℕ × Bool) × SpeculativeChunk) → Prop
  | .error e => e ≠ .outOfFuel ∧ ∀ f ts rest, startBit ≤ 8 * input.length →
      ¬Blocks 48 (stopAt input endBitHint) ((bits input).drop startBit) f ts rest
  | .ok ((e, f), chunk) => startBit ≤ 8 * input.length ∧ ∃ ts rest cells,
      Blocks 0 (stopAt input endBitHint) ((bits input).drop startBit) f ts rest ∧
      e + rest.length = 8 * input.length ∧
      expand UInt8.toNat markerPrefix ts = some (markerPrefix ++ cells) ∧
      chunk = chunkOf (pre ++ cells)

/-- Behind the unknown history, blocks always expand. -/
theorem blocksDecode_of_blocks {room : ℕ} {stop : List Bool → Bool} {f : Bool} {ts : List Token}
    (h : Blocks room stop bs f ts rest) (hout : U16_WINDOW ≤ out.length) :
    ∃ res, BlocksDecode room stop UInt8.toNat bs out f rest res := by
  obtain ⟨res, hres⟩ :=
    expand_isSome UInt8.toNat (fun t ht => (h.bounds t ht).bounded) hout
  exact ⟨res, ts, h, hres⟩

/-- Speculative decoding decodes the blocks behind the unknown history, whatever the chunk holds
already. -/
theorem untilSpecOnto_decodeUntilU16 (input : List UInt8) (startBit endBitHint : ℕ)
    (pre scratch : List ℕ) :
    UntilSpecOnto input startBit endBitHint pre
      (Unbounded.decodeUntilU16 input startBit endBitHint (chunkOf pre) scratch) := by
  unfold Unbounded.decodeUntilU16
  rcases BitReader.seekToBit_at input startBit with ⟨hle, br, hseek, hat⟩ | ⟨hlt, hseek⟩
  swap
  · rw [hseek]
    exact ⟨by simp, fun _ _ _ hle => by omega⟩
  rw [hseek]
  have hstart : (Window.mk (prepareScratch scratch) 0 0 ⟨[], []⟩).Behind markerPrefix :=
    ⟨[], by simp, Window.Holds.start _⟩
  have hfuel := hat.length_le
  have hphase := phase1Spec_iterate endBitHint hstart isCell_markerPrefix hat
    (show ((bits input).drop startBit).length < 8 * br.input.length + 1 by rw [hat.input_eq]; omega)
  have hwide : U16_WINDOW ≤ markerPrefix.length := markerPrefix_length.ge
  have honto : Window.mk (prepareScratch scratch) 0 0 (chunkOf pre) =
      (Window.mk (prepareScratch scratch) 0 0 ⟨[], []⟩).onto (chunkOf pre) := by
    have hempty := onto_chunkOf pre []
    rw [List.append_nil] at hempty
    rw [Window.onto, show (⟨[], []⟩ : SpeculativeChunk) = chunkOf [] from rfl, hempty]
  rw [honto]
  simp only [bind, Except.bind, phase1_onto]
  rw [phase1]
  revert hphase
  generalize Loop.iterate .outOfFuel (phase1Round endBitHint) (8 * br.input.length + 1)
    (Window.mk (prepareScratch scratch) 0 0 ⟨[], []⟩, br) = res
  rcases res with e | ⟨⟨ended, w⟩, br₁⟩
  · rintro ⟨he, hnone⟩
    refine ⟨he, fun f ts rest _ hblocks => ?_⟩
    obtain ⟨res, hdec⟩ := blocksDecode_of_blocks hblocks hwide
    exact hnone f rest res hdec
  cases ended with
  | some f =>
    rintro ⟨rest, _, ⟨ts, hblocks, hexpand⟩, ⟨cells, rfl, hholds⟩, hat₁⟩
    refine ⟨hle, ts, rest, cells, hblocks, hat₁.tellBit, hexpand, ?_⟩
    rw [Window.onto_extractAll, hholds.extractAll, onto_chunkOf]
  | none =>
    rintro ⟨mid, _, hreaches, ⟨cells, rfl, hholds⟩, hat₁, hfree, hcells⟩
    obtain ⟨front, last, rfl, hlast⟩ := markerFree_split hholds
      (fun c hc => hcells c (List.mem_append_right _ hc)) hfree
    have hchunk : (w.onto (chunkOf pre)).extractAll =
        chunkOf (pre ++ front ++ last.map UInt8.toNat) := by
      rw [Window.onto_extractAll, hholds.extractAll, onto_chunkOf, List.append_assoc]
    have hbytes : (chunkOf (pre ++ front ++ last.map UInt8.toNat)).bytes =
        (pre ++ front).map narrow ++ last := by
      rw [chunkOf_append_bytes]
      rfl
    have hspec := blocksSpec_blocksWith Unbounded.decodesBlocks_decodeOneBlockPreload
      (fun br => decide (endBitHint ≤ br.tellBit)) (stopAt input endBitHint)
      (fun br bs hat => stopAt_eq endBitHint hat) ((pre ++ front).map narrow ++ last) hat₁
    have hbehind {us : List Token} (hus : ∀ t ∈ us, CopyBounds t) : ∃ more : List UInt8,
        expand id ((pre ++ front).map narrow ++ last) us =
          some ((pre ++ front).map narrow ++ last ++ more) ∧
        expand UInt8.toNat (markerPrefix ++ (front ++ last.map UInt8.toNat)) us =
          some (markerPrefix ++ (front ++ last.map UInt8.toNat ++ more.map UInt8.toNat)) := by
      obtain ⟨more, hmore, hcells'⟩ := expand_handoff front hlast hus
      have hpre := expand_append_left (pre.map narrow) hmore
      refine ⟨more, ?_, hcells'⟩
      simpa only [List.map_append, List.append_assoc] using hpre
    simp only [Except.map, hchunk, hbytes]
    revert hspec
    cases blocksWith Unbounded.decodeOneBlockPreload (fun br => decide (endBitHint ≤ br.tellBit))
      ((pre ++ front).map narrow ++ last) br₁ with
    | error e =>
      rintro ⟨he, hnone⟩
      refine ⟨he, fun f ts rest _ hblocks => ?_⟩
      obtain ⟨res, hdec⟩ := blocksDecode_of_blocks hblocks hwide
      obtain ⟨us, htail, -⟩ := (hreaches f rest res).2 hdec
      obtain ⟨more, hmore, -⟩ := hbehind htail.bounds
      exact hnone f rest _ ⟨us, htail, hmore⟩
    | ok r =>
      obtain ⟨⟨f, bytes⟩, br₂⟩ := r
      rintro ⟨rest, ⟨us, htail, hbytes'⟩, hat₂⟩
      obtain ⟨more, hmore, hcells'⟩ := hbehind htail.bounds
      rw [hmore] at hbytes'
      cases hbytes'
      obtain ⟨ts, hblocks, hexpand⟩ := (hreaches f rest _).1 ⟨us, htail, hcells'⟩
      refine ⟨hle, ts, rest, _, hblocks, hat₂.tellBit, hexpand, ?_⟩
      rw [← List.append_assoc, ← List.append_assoc, chunkOf_append_bytes _ more, hbytes]

/-- Speculative decoding decodes the blocks behind the unknown history. -/
theorem untilSpec_decodeUntilU16 (input : List UInt8) (startBit endBitHint : ℕ)
    (scratch : List ℕ) :
    UntilSpec input startBit endBitHint
      (Unbounded.decodeUntilU16 input startBit endBitHint ⟨[], []⟩ scratch) := by
  have hspec := untilSpecOnto_decodeUntilU16 input startBit endBitHint [] scratch
  rw [show chunkOf [] = ⟨[], []⟩ from rfl] at hspec
  revert hspec
  cases Unbounded.decodeUntilU16 input startBit endBitHint ⟨[], []⟩ scratch with
  | error e => exact id
  | ok r => exact id

/-! ## Plain decoding -/

/-- Expanding after a history, or after the part of it that copies can reach. -/
theorem expand_lastWindow (history : List UInt8) {ts : List Token} (hts : ∀ t ∈ ts, CopyBounds t)
    (out : List UInt8) :
    expand id history ts = some (history ++ out) ↔
      expand id (lastWindow history) ts = some (lastWindow history ++ out) := by
  have hsplit : history.take (history.length - U16_WINDOW) ++ lastWindow history = history :=
    List.take_append_drop _ _
  constructor
  · intro h
    by_cases hshort : history.length ≤ U16_WINDOW
    · rwa [lastWindow, Nat.sub_eq_zero_of_le hshort, List.drop_zero]
    · rw [← hsplit] at h
      obtain ⟨out', heq, h'⟩ := expand_window _ (fun t ht => (hts t ht).bounded)
        (show U16_WINDOW ≤ (lastWindow history).length by
          rw [lastWindow, List.length_drop]; omega) h
      rw [List.append_assoc, List.append_cancel_left_eq] at heq
      rw [h', heq]
  · intro h
    have h' := expand_append_left (history.take (history.length - U16_WINDOW)) h
    rwa [← List.append_assoc, hsplit] at h'

/-- Resolving the cells expanded behind the unknown history gives the bytes expanded after a
history, and needs no byte before it. -/
theorem expand_resolveCell (history : List UInt8) {ts : List Token} (hts : ∀ t ∈ ts, CopyBounds t)
    {cells : List ℕ} (hcells : expand UInt8.toNat markerPrefix ts = some (markerPrefix ++ cells))
    (out : List UInt8) :
    expand id history ts = some (history ++ out) ↔
      cells.map (resolveCell (lastWindow history)) = out.map some := by
  have hmap := map_expand (resolveCell (lastWindow history)) UInt8.toNat markerPrefix ts
  rw [hcells, Option.map_some, List.map_append,
    map_resolveCell_markerPrefix (lastWindow_length_le history)] at hmap
  simp only [resolveCell_toNat] at hmap
  rw [expand_lastWindow history hts]
  constructor
  · intro h
    have hpad := expand_padded (U16_WINDOW - (lastWindow history).length) h
    simp only [id] at hpad
    rw [hpad, Option.some.injEq, padded, padded, List.map_append, ← List.append_assoc,
      List.append_cancel_left_eq] at hmap
    exact hmap
  · intro h
    refine expand_of_padded (k := U16_WINDOW - (lastWindow history).length)
      (fun t ht => (hts t ht).bounded) ?_
    simp only [id]
    rw [← hmap, h, padded, padded, List.map_append, List.append_assoc]

/-- Over an unbounded output, speculative decoding and the resolution of its markers are plain
decoding with history: they return what it returns, and succeed only where it does or the input
ends too soon. -/
theorem unbounded_resolveMarkers (input : List UInt8) (startBit endBitHint : ℕ)
    (history : List UInt8) (scratch : List ℕ) :
    (∀ e f res, FastInflate.decodeMemberU8 input startBit endBitHint history = .ok ((e, f), res) →
      ∃ out, res = history ++ out ∧ (out.length < 2 ^ 32 →
        ∃ chunk, Unbounded.decodeUntilU16 input startBit endBitHint ⟨[], []⟩ scratch =
            .ok ((e, f), chunk) ∧
          resolveMarkers chunk (lastWindow history) = .ok ⟨out, []⟩)) ∧
    (∀ e f chunk resolved,
      Unbounded.decodeUntilU16 input startBit endBitHint ⟨[], []⟩ scratch = .ok ((e, f), chunk) →
      resolveMarkers chunk (lastWindow history) = .ok resolved → e + 64 ≤ 8 * input.length →
      ∃ res, FastInflate.decodeMemberU8 input startBit endBitHint history = .ok res) := by
  have hplain := memberSpec_memberWith FastInflate.decodesBlocks_decodeOneBlock input startBit
    endBitHint history
  have huntil := untilSpec_decodeUntilU16 input startBit endBitHint scratch
  constructor
  · intro e f res hok
    rw [show memberWith FastInflate.decodeOneBlock input startBit endBitHint history =
      .ok ((e, f), res) from hok] at hplain
    obtain ⟨hle, ts, rest, hblocks, he, hexpand⟩ := hplain
    obtain ⟨out, rfl⟩ := expand_extends hexpand
    refine ⟨out, rfl, fun hsize => ?_⟩
    cases hrun : Unbounded.decodeUntilU16 input startBit endBitHint ⟨[], []⟩ scratch with
    | error err =>
      rw [hrun] at huntil
      exact absurd hblocks (huntil.2 f ts rest hle)
    | ok r =>
      obtain ⟨⟨e', f'⟩, chunk⟩ := r
      rw [hrun] at huntil
      obtain ⟨-, us, rest', cells, hblocks', he', hcells, rfl⟩ := huntil
      obtain ⟨rfl, rfl, rfl⟩ := hblocks.unique hblocks'
      have hout := (expand_resolveCell history hblocks.bounds hcells out).mp hexpand
      have hlen : cells.length = out.length := by simpa using congrArg List.length hout
      refine ⟨chunkOf cells, by rw [show e' = e by omega], ?_⟩
      rcases resolveMarkers_chunkOf (lastWindow history)
        (nearMarkers_of_length (show 0 + cells.length ≤ 2 ^ 32 by omega)) with
        ⟨bytes, hbytes, hresolved⟩ | ⟨hnone, -⟩
      · rw [hout] at hbytes
        rw [hresolved, List.map_injective_iff.mpr (Option.some_injective _) hbytes]
      · rw [hout] at hnone
        simp at hnone
  · intro e f chunk resolved hrun hresolve hroom
    rw [hrun] at huntil
    obtain ⟨hle, ts, rest, cells, hblocks, he, hcells, rfl⟩ := huntil
    obtain ⟨out, hout⟩ := resolvable_of_resolveMarkers hresolve
    have hexpand := (expand_resolveCell history hblocks.bounds hcells out).mpr hout
    cases hok : FastInflate.decodeMemberU8 input startBit endBitHint history with
    | ok res => exact ⟨res, rfl⟩
    | error err =>
      rw [show memberWith FastInflate.decodeOneBlock input startBit endBitHint history =
        .error err from hok] at hplain
      rw [hplain.2 f ts rest hle (hblocks.of_rest (by omega))] at hexpand
      cases hexpand

end Speculative

end RustyRapidgzip
