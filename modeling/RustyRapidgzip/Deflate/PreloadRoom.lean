import RustyRapidgzip.Deflate.Preload

/-!
# Room in the output of the preload decoder

The preload kernel writes through a raw pointer. It checks the room at its top and where a
run of literals refills, and assumes that what it writes until the next check fits. Here the
cursor and the capacity are explicit, the bytes are left out, and every store is recorded. A
match on the fast path is not checked again, and up to 48 literals of one bit may stand
between the check and the match, so this is the one place where the stores can leave the
vector.
-/

namespace RustyRapidgzip

open LsbBits Reference HuffmanDecoder Lz

namespace PreloadRoom

open Preload (HEADROOM)

/-- The symbol loop stands at its top, or holds a loaded entry. -/
structure State where
  loaded : Option ℕ
  cur : ℕ
  cap : ℕ
  br : BitReader

/-- A store of `count` bytes from `pos`, and the capacity at that time. -/
structure Write where
  pos : ℕ
  count : ℕ
  cap : ℕ
  deriving DecidableEq, Repr

/-- The store lies in the vector. -/
def Write.Fits (w : Write) : Prop := w.pos + w.count ≤ w.cap

/-- Whether a store fits can be decided. -/
instance (w : Write) : Decidable w.Fits := inferInstanceAs (Decidable (_ ≤ _))

/-- What a step stores, and where it goes. -/
abbrev Step : Type := List Write × Except DeflateError (State ⊕ (ℕ × BitReader))

/-- The difference of two machine words. -/
def subUsize (a b : ℕ) : ℕ := if b ≤ a then a - b else a + 2 ^ 64 - b

/-- Reserve if there is no room for a run of literals, a match and its overshoot. -/
def ensureRoom (grow : Reserve) (copyN cur cap : ℕ) : ℕ :=
  if subUsize cap cur < 288 + copyN then grow.reserve cap cur HEADROOM else cap

/-- Refill, read a distance, make room and copy. -/
def decodeDistanceAndCopy (grow : Reserve) (copyN : ℕ) (dist : HuffmanDecoder)
    (length cur cap : ℕ) (br : BitReader) : Step :=
  match br.refillKernel with
  | .error e => ([], .error e)
  | .ok br =>
    match distanceOf dist br with
    | .error e => ([], .error e)
    | .ok (distance, br) =>
      if distance = 0 ∨ cur < distance then
        ([], .error (.invalid "back-reference distance out of bounds"))
      else
        let cap :=
          if subUsize cap cur < length + copyN then grow.reserve cap cur (length + 4096) else cap
        ([⟨cur, copyExtent copyN distance length, cap⟩], .ok (.inl ⟨none, cur + length, cap, br⟩))

/-- Act on a symbol whose code did not fit the table. -/
def longSymbol (grow : Reserve) (copyN : ℕ) (dist : HuffmanDecoder) (e cur cap : ℕ)
    (br : BitReader) : Step :=
  if e &&& HUFFDEC_LITERAL ≠ 0 then
    let cap := if cur = cap then grow.reserve cap cur HEADROOM else cap
    ([⟨cur, 1, cap⟩], .ok (.inl ⟨none, cur + 1, cap, br⟩))
  else if e &&& HUFFDEC_EXCEPTIONAL ≠ 0 then
    if e >>> 16 = 0 then ([], .ok (.inr (cur, br)))
    else ([], .error (.invalid "literal/length symbol out of range"))
  else
    match (if 0 < (e >>> 8) &&& 0x1f then br.refillKernel else .ok br) with
    | .error e => ([], .error e)
    | .ok br =>
      let (length, br) := lengthOf e br
      decodeDistanceAndCopy grow copyN dist length cur cap br

/-- Act on a loaded entry that is neither a literal nor empty. -/
def shortSymbol (copyN : ℕ) (dist : HuffmanDecoder) (entry cur cap : ℕ) (br : BitReader) : Step :=
  let br := br.consume (entry &&& 0xff)
  if entry &&& HUFFDEC_EXCEPTIONAL ≠ 0 then
    if entry >>> 16 = 0 then ([], .ok (.inr (cur, br)))
    else ([], .error (.invalid "literal/length symbol out of range"))
  else
    let (length, br) := lengthOf entry br
    match (if br.bits < 28 then br.refillKernel else .ok br) with
    | .error e => ([], .error e)
    | .ok br =>
      match distanceOf dist br with
      | .error e => ([], .error e)
      | .ok (distance, br) =>
        if distance = 0 then ([], .error (.invalid "zero back-reference distance"))
        else if cur < distance then
          ([], .error (.invalid "back-reference distance out of bounds"))
        else
          ([⟨cur, copyExtent copyN distance length, cap⟩],
            .ok (.inl ⟨none, cur + length, cap, br⟩))

/-- One step of the symbol loop: make room and load an entry at the top, or act on the loaded
one. -/
def step (grow : Reserve) (copyN : ℕ) (lit dist : HuffmanDecoder) (s : State) : Step :=
  match s.loaded with
  | none =>
    let cap := ensureRoom grow copyN s.cur s.cap
    match s.br.refillKernel with
    | .error e => ([], .error e)
    | .ok br =>
      ([], .ok (.inl ⟨some (lit.lut (br.peekBitsUnchecked LUT_BITS)), s.cur, cap, br⟩))
  | some entry =>
    if entry &&& HUFFDEC_LITERAL ≠ 0 then
      let br := s.br.consume (entry &&& 0xff)
      let cur := s.cur + 1
      let writes : List Write := [⟨s.cur, 1, s.cap⟩]
      if br.bits < Unbounded.LIT_GUARD then
        match br.refillKernel with
        | .error e => (writes, .error e)
        | .ok br => (writes, .ok (.inl ⟨some (lit.lut (br.peekBitsUnchecked LUT_BITS)), cur,
            ensureRoom grow copyN cur s.cap, br⟩))
      else (writes, .ok (.inl ⟨some (lit.lut (br.peekBitsUnchecked LUT_BITS)), cur, s.cap, br⟩))
    else if entry &&& 0xff = 0 then
      match lit.lookupLong s.br with
      | .error e => ([], .error e)
      | .ok (e, br) => longSymbol grow copyN dist e s.cur s.cap br
    else shortSymbol copyN dist entry s.cur s.cap s.br

/-- The loop's first state, for a vector of the given length and capacity. -/
def start (grow : Reserve) (len capacity : ℕ) (br : BitReader) : State :=
  let capacity :=
    if capacity - len < HEADROOM then grow.reserve capacity len HEADROOM else capacity
  ⟨none, len, capacity, br⟩

/-- The states a run comes through. -/
def Reached (grow : Reserve) (copyN : ℕ) (lit dist : HuffmanDecoder) : State → State → Prop :=
  Relation.ReflTransGen fun s s' => (step grow copyN lit dist s).2 = .ok (.inl s')

/-- At the top of every iteration the cursor is within the capacity, and every store of the
run lies in the vector. -/
def NeverOverruns (grow : Reserve) (copyN : ℕ) (lit dist : HuffmanDecoder) (s : State) : Prop :=
  ∀ t, Reached grow copyN lit dist s t →
    (t.loaded = none → t.cur ≤ t.cap) ∧ ∀ w ∈ (step grow copyN lit dist t).1, w.Fits

/-- The state holds a length symbol from the table, and goes on to copy. -/
def FastCopy (dist : HuffmanDecoder) (s : State) (distance length : ℕ) : Prop :=
  ∃ entry br₁ br₂ br₃, s.loaded = some entry ∧ entry &&& HUFFDEC_LITERAL = 0 ∧
    entry &&& 0xff ≠ 0 ∧ entry &&& HUFFDEC_EXCEPTIONAL = 0 ∧
    lengthOf entry (s.br.consume (entry &&& 0xff)) = (length, br₁) ∧
    (if br₁.bits < 28 then br₁.refillKernel else .ok br₁) = .ok br₂ ∧
    distanceOf dist br₂ = .ok (distance, br₃) ∧ 0 < distance ∧ distance ≤ s.cur

/-- The state holds a literal, after which the bits run low: the run refills, and makes room. -/
def Refills (s : State) : Prop :=
  ∃ entry, s.loaded = some entry ∧ entry &&& HUFFDEC_LITERAL ≠ 0 ∧
    (s.br.consume (entry &&& 0xff)).bits < Unbounded.LIT_GUARD

/-- The step makes room, and loads the entry of the state. -/
def Checks (grow : Reserve) (copyN : ℕ) (lit dist : HuffmanDecoder) (t c : State) : Prop :=
  (t.loaded = none ∨ Refills t) ∧ (step grow copyN lit dist t).2 = .ok (.inl c)

/-- A run of literals without another check, and their number. -/
inductive LiteralRun (grow : Reserve) (copyN : ℕ) (lit dist : HuffmanDecoder) (c : State) :
    ℕ → State → Prop
  | nil : LiteralRun grow copyN lit dist c 0 c
  | snoc {n : ℕ} {t t' : State} {entry : ℕ} (hrun : LiteralRun grow copyN lit dist c n t)
      (hloaded : t.loaded = some entry) (hliteral : entry &&& HUFFDEC_LITERAL ≠ 0)
      (hbits : ¬(t.br.consume (entry &&& 0xff)).bits < Unbounded.LIT_GUARD)
      (hstep : (step grow copyN lit dist t).2 = .ok (.inl t')) :
      LiteralRun grow copyN lit dist c (n + 1) t'

/-- Where 33 or more literals follow a check and then a match on the fast path, without another
check between them, the check has left room for the literals and for what the match stores. -/
def LongRunsFit (grow : Reserve) (copyN : ℕ) (lit dist : HuffmanDecoder) (s : State) : Prop :=
  ∀ u c n t, Reached grow copyN lit dist s u → Checks grow copyN lit dist u c →
    LiteralRun grow copyN lit dist c n t → 33 ≤ n →
    ∀ distance length, FastCopy dist t distance length →
      n + copyExtent copyN distance length ≤ c.cap - c.cur

/-! ## The bytes behind the cursor -/

section Simulation

variable {grow : Reserve} {copyN cap : ℕ} {lit dist : HuffmanDecoder} {input : List UInt8}
  {lits dists : List ℕ}

/-- The state of a loop that has its bytes in a vector. -/
def stateOf (s : Unbounded.State) (cap : ℕ) : State := ⟨s.loaded, s.out.length, cap, s.br⟩

/-- The loop with a cursor does what the loop over bytes does. -/
def Simulates (r : Except DeflateError (Unbounded.State ⊕ (List UInt8 × BitReader)))
    (r' : Except DeflateError (State ⊕ (ℕ × BitReader))) : Prop :=
  match r with
  | .error e => r' = .error e
  | .ok (.inl s) => ∃ cap, r' = .ok (.inl (stateOf s cap))
  | .ok (.inr (out, br)) => r' = .ok (.inr (out.length, br))

/-- A copy adds its length. -/
theorem copyBackRaw_length {out : List UInt8} {d : ℕ} (n : ℕ) (hd : 0 < d) (hle : d ≤ out.length) :
    (copyBackRaw out d n).length = out.length + n := by
  rw [copyBackRaw_eq hd hle, copyBack_length hd hle]

/-- The cursor of a copy is the length of the list. -/
theorem simulates_decodeDistanceAndCopy (length : ℕ) (out : List UInt8) (br : BitReader) :
    Simulates
      (match Unbounded.decodeDistanceAndCopy dist length out br with
        | .error e => .error e
        | .ok (out, br) => .ok (.inl ⟨none, out, br⟩))
      (decodeDistanceAndCopy grow copyN dist length out.length cap br).2 := by
  unfold Unbounded.decodeDistanceAndCopy decodeDistanceAndCopy
  cases br.refillKernel with
  | error e => rfl
  | ok br₁ =>
    simp only [copyMatch, bind, Except.bind]
    cases distanceOf dist br₁ with
    | error e => rfl
    | ok r =>
      obtain ⟨distance, br₂⟩ := r
      simp only [Unbounded.resolve]
      by_cases hbad : distance = 0 ∨ out.length < distance
      · simp only [if_pos hbad]
        rfl
      · have hlen := copyBackRaw_length length (show 0 < distance by omega)
          (show distance ≤ out.length by omega)
        simp only [if_neg hbad]
        exact ⟨_, by rw [stateOf, hlen]⟩

/-- The cursor behind a symbol among the long codes is the length of the list. -/
theorem simulates_longSymbol (e : ℕ) (out : List UInt8) (br : BitReader) :
    Simulates (Unbounded.longSymbol dist e out br)
      (longSymbol grow copyN dist e out.length cap br).2 := by
  unfold Unbounded.longSymbol longSymbol
  by_cases hliteral : e &&& HUFFDEC_LITERAL ≠ 0
  · rw [if_pos hliteral, if_pos hliteral]
    exact ⟨_, by rw [stateOf, List.length_append, List.length_singleton]⟩
  rw [if_neg hliteral, if_neg hliteral]
  by_cases hexc : e &&& HUFFDEC_EXCEPTIONAL ≠ 0
  · rw [if_pos hexc, if_pos hexc]
    split <;> rfl
  rw [if_neg hexc, if_neg hexc]
  cases (if 0 < (e >>> 8) &&& 0x1f then br.refillKernel else .ok br) with
  | error e => rfl
  | ok br₁ => exact simulates_decodeDistanceAndCopy _ out _

/-- The cursor behind a symbol of the table is the length of the list. -/
theorem simulates_shortSymbol (entry : ℕ) (out : List UInt8) (br : BitReader) :
    Simulates (Unbounded.shortSymbol dist entry out br)
      (shortSymbol copyN dist entry out.length cap br).2 := by
  unfold Unbounded.shortSymbol shortSymbol
  simp only
  by_cases hexc : entry &&& HUFFDEC_EXCEPTIONAL ≠ 0
  · rw [if_pos hexc, if_pos hexc]
    split <;> rfl
  rw [if_neg hexc, if_neg hexc]
  generalize lengthOf entry (br.consume (entry &&& 0xff)) = r
  obtain ⟨length, br₁⟩ := r
  simp only
  cases (if br₁.bits < 28 then br₁.refillKernel else .ok br₁) with
  | error e => rfl
  | ok br₂ =>
    simp only [copyMatch, bind, Except.bind]
    cases distanceOf dist br₂ with
    | error e => rfl
    | ok r =>
      obtain ⟨distance, br₃⟩ := r
      simp only [FastInflate.resolve]
      by_cases hzero : distance = 0
      · simp only [if_pos hzero]
        rfl
      by_cases hfar : out.length < distance
      · simp only [if_neg hzero, if_pos hfar]
        rfl
      · have hlen := copyBackRaw_length length (show 0 < distance by omega)
          (show distance ≤ out.length by omega)
        simp only [if_neg hzero, if_neg hfar]
        exact ⟨_, by rw [stateOf, hlen]⟩

/-- A step leaves the cursor at the length of the list. -/
theorem simulates_step (s : Unbounded.State) (cap : ℕ) :
    Simulates (Unbounded.round lit dist s) (step grow copyN lit dist (stateOf s cap)).2 := by
  obtain ⟨loaded, out, br⟩ := s
  unfold Unbounded.round step stateOf
  cases loaded with
  | none =>
    simp only
    cases br.refillKernel with
    | error e => rfl
    | ok br₁ => exact ⟨_, rfl⟩
  | some entry =>
    simp only
    by_cases hliteral : entry &&& HUFFDEC_LITERAL ≠ 0
    · simp only [if_pos hliteral]
      by_cases hlow : (br.consume (entry &&& 0xff)).bits < Unbounded.LIT_GUARD
      · simp only [if_pos hlow]
        cases (br.consume (entry &&& 0xff)).refillKernel with
        | error e => rfl
        | ok br₁ =>
          exact ⟨ensureRoom grow copyN (out.length + 1) cap,
            by simp only [stateOf, List.length_append, List.length_singleton]⟩
      · simp only [if_neg hlow]
        exact ⟨cap, by simp only [stateOf, List.length_append, List.length_singleton]⟩
    · simp only [if_neg hliteral]
      by_cases hlong : entry &&& 0xff = 0
      · simp only [if_pos hlong]
        cases lit.lookupLong br with
        | error e => rfl
        | ok r => exact simulates_longSymbol r.1 out r.2
      · simp only [if_neg hlong]
        exact simulates_shortSymbol entry out br

/-- The reader of a state is well formed, and its entry is the one under the next ten bits. -/
def Reads (input : List UInt8) (lit : HuffmanDecoder) (s : State) : Prop :=
  ∃ p cap bs, s = stateOf p cap ∧ Unbounded.Inv input lit p bs p.out

/-- A step reads its codes at a place of the input. -/
theorem reads_step (hlen : lits.length ≤ 288) (hlit : lit.Implements lits .litLen)
    (hdist : dist.Implements dists .dist) {s s' : State} (h : Reads input lit s)
    (hstep : (step grow copyN lit dist s).2 = .ok (.inl s')) : Reads input lit s' := by
  obtain ⟨p, cap, bs, rfl, hinv⟩ := h
  have hsim := @simulates_step grow copyN lit dist p cap
  have hround := Unbounded.follows_round hlen hlit hdist p bs p.out hinv
  rw [hstep] at hsim
  revert hsim hround
  rcases Unbounded.round lit dist p with e | p' | ⟨out, br⟩
  · rintro ⟨⟩
  · rintro ⟨cap', hsame⟩ ⟨ts, mid, out', -, -, hinv', -⟩
    cases hsame
    have hout := hinv'.out_eq
    exact ⟨p', cap', mid, rfl, hout ▸ hinv'⟩
  · rintro ⟨⟩

end Simulation

/-! ## Room -/

section Room

variable {grow : Reserve} {copyN k : ℕ} {lit dist : HuffmanDecoder} {input : List UInt8}
  {lits dists : List ℕ} {s s' : State}

/-- The check leaves room for 288 bytes and a chunk. -/
theorem ensureRoom_room (hn : copyN ≤ 32) {cur cap : ℕ} (hcur : cur ≤ cap) :
    cur + 288 + copyN ≤ ensureRoom grow copyN cur cap := by
  have henough := grow.enough cap cur HEADROOM
  have hheadroom : HEADROOM = 4096 := rfl
  unfold ensureRoom subUsize
  rw [if_pos hcur]
  split <;> omega

/-- The room a state has left: in a run of literals, what the last check found less the
literals since, of which each took `k` of the 63 bits the word held at most. -/
structure Room (copyN k : ℕ) (s : State) : Prop where
  top : s.loaded = none → s.cur ≤ s.cap
  run : ∀ entry, s.loaded = some entry →
    ∃ run, s.cur + 288 + copyN ≤ s.cap + run ∧ k * run + s.br.bits ≤ 63

/-- The codes of the literals take at least `k` bits. -/
def LiteralsTake (lits : List ℕ) (k : ℕ) : Prop :=
  ∀ sym < 256, 0 < lits.getD sym 0 → k ≤ lits.getD sym 0

/-- Every literal takes a bit. -/
theorem literalsTake_one (lits : List ℕ) : LiteralsTake lits 1 := fun _ _ hpos => hpos

/-- Literals have the symbols below 256. -/
theorem lt_of_litLen {sym : ℕ} {b : UInt8} (h : litLen sym = .literal b) : sym < 256 := by
  by_contra hsym
  unfold litLen at h
  rw [if_neg hsym] at h
  split at h
  · cases h
  · split at h <;> cases h

/-- A loaded literal takes at least `k` bits. -/
theorem literal_length (hlen : lits.length ≤ 288) (hlit : lit.Implements lits .litLen)
    (htake : LiteralsTake lits k) {bs : List Bool} (hbs : LUT_BITS ≤ bs.length) {entry : ℕ}
    (hentry : entry = lit.lut (ofLsb (bs.take LUT_BITS)))
    (hliteral : entry &&& HUFFDEC_LITERAL ≠ 0) :
    k ≤ entry &&& 0xff ∧ 0 < entry &&& 0xff ∧ entry &&& 0xff ≤ LUT_BITS := by
  rcases hlit.lut_cases bs hbs with ⟨sym, hdec, hle, hpos, hlut⟩ | ⟨-, hlut⟩
  · have h15 : lits.getD sym 0 ≤ 15 := Nat.le_trans hle (by decide)
    have hlt := (Canonical.decode_some hdec).1
    rw [hentry, hlut] at hliteral
    rw [hentry, hlut, encodeEntry_length sym .litLen h15]
    refine ⟨htake sym ?_ hpos, hpos, hle⟩
    have hshape := litLen_entry (show sym < 2 ^ 15 by omega) h15
    cases hsym : litLen sym with
    | literal b => exact lt_of_litLen hsym
    | endOfBlock =>
      rw [hsym] at hshape
      exact absurd hshape.1 hliteral
    | length base extra =>
      rw [hsym] at hshape
      exact absurd hshape.1 hliteral
    | reserved =>
      rw [hsym] at hshape
      exact absurd hshape.1 hliteral
  · rw [hentry, hlut, Nat.zero_and] at hliteral
    exact absurd rfl hliteral

/-- The copies off the fast path make their own room. -/
theorem room_decodeDistanceAndCopy (hn : 0 < copyN) (hn32 : copyN ≤ 32) {length cur cap : ℕ}
    {br : BitReader}
    (hcur : cur ≤ cap) :
    (∀ w ∈ (decodeDistanceAndCopy grow copyN dist length cur cap br).1, w.Fits) ∧
      ∀ s', (decodeDistanceAndCopy grow copyN dist length cur cap br).2 = .ok (.inl s') →
        Room copyN k s' := by
  unfold decodeDistanceAndCopy
  cases br.refillKernel with
  | error e => exact ⟨nofun, nofun⟩
  | ok br₁ =>
    simp only
    cases distanceOf dist br₁ with
    | error e => exact ⟨nofun, nofun⟩
    | ok r =>
      obtain ⟨distance, br₂⟩ := r
      simp only
      by_cases hbad : distance = 0 ∨ cur < distance
      · rw [if_pos hbad]
        exact ⟨nofun, nofun⟩
      rw [if_neg hbad]
      obtain ⟨cap', hcap'⟩ : ∃ cap', (if subUsize cap cur < length + copyN then
          grow.reserve cap cur (length + 4096) else cap) = cap' := ⟨_, rfl⟩
      obtain ⟨hle, hextent⟩ := copyExtent_bounds hn distance length
      have hroom : cur + copyExtent copyN distance length ≤ cap' := by
        have henough := grow.enough cap cur (length + 4096)
        rw [subUsize, if_pos hcur] at hcap'
        split at hcap' <;> omega
      rw [hcap']
      refine ⟨fun w hw => ?_, ?_⟩
      · obtain rfl := List.mem_singleton.mp hw
        exact hroom
      · rintro _ ⟨⟩
        refine ⟨fun _ => ?_, nofun⟩
        simp only
        omega

/-- So do the symbols whose code did not fit the table. -/
theorem room_longSymbol (hn : 0 < copyN) (hn32 : copyN ≤ 32) {e cur cap : ℕ} {br : BitReader}
    (hcur : cur ≤ cap) :
    (∀ w ∈ (longSymbol grow copyN dist e cur cap br).1, w.Fits) ∧
      ∀ s', (longSymbol grow copyN dist e cur cap br).2 = .ok (.inl s') → Room copyN k s' := by
  unfold longSymbol
  by_cases hliteral : e &&& HUFFDEC_LITERAL ≠ 0
  · rw [if_pos hliteral]
    obtain ⟨cap', hcap'⟩ : ∃ cap', (if cur = cap then grow.reserve cap cur HEADROOM else cap) =
        cap' := ⟨_, rfl⟩
    have hroom : cur + 1 ≤ cap' := by
      have henough := grow.enough cap cur HEADROOM
      have hheadroom : HEADROOM = 4096 := rfl
      split at hcap' <;> omega
    simp only [hcap']
    refine ⟨fun w hw => ?_, ?_⟩
    · obtain rfl := List.mem_singleton.mp hw
      exact hroom
    · rintro _ ⟨⟩
      exact ⟨fun _ => hroom, nofun⟩
  rw [if_neg hliteral]
  by_cases hexc : e &&& HUFFDEC_EXCEPTIONAL ≠ 0
  · rw [if_pos hexc]
    split <;> exact ⟨nofun, nofun⟩
  rw [if_neg hexc]
  cases (if 0 < (e >>> 8) &&& 0x1f then br.refillKernel else .ok br) with
  | error e => exact ⟨nofun, nofun⟩
  | ok br₁ => exact room_decodeDistanceAndCopy hn hn32 hcur

/-- A match on the fast path stays in the room if its copy does. -/
theorem room_shortSymbol (hn : 0 < copyN) {entry : ℕ} (hloaded : s.loaded = some entry)
    (hliteral : entry &&& HUFFDEC_LITERAL = 0) (hshort : entry &&& 0xff ≠ 0)
    (hfits : ∀ distance length, FastCopy dist s distance length →
      s.cur + copyExtent copyN distance length ≤ s.cap) :
    (∀ w ∈ (shortSymbol copyN dist entry s.cur s.cap s.br).1, w.Fits) ∧
      ∀ s', (shortSymbol copyN dist entry s.cur s.cap s.br).2 = .ok (.inl s') →
        Room copyN k s' := by
  unfold shortSymbol
  simp only
  by_cases hexc : entry &&& HUFFDEC_EXCEPTIONAL ≠ 0
  · rw [if_pos hexc]
    split <;> exact ⟨nofun, nofun⟩
  rw [if_neg hexc]
  obtain ⟨length, br₁, hlength⟩ : ∃ length br₁,
      lengthOf entry (s.br.consume (entry &&& 0xff)) = (length, br₁) := ⟨_, _, rfl⟩
  rw [hlength]
  simp only
  cases hrefill : (if br₁.bits < 28 then br₁.refillKernel else .ok br₁) with
  | error e => exact ⟨nofun, nofun⟩
  | ok br₂ =>
    simp only
    cases hdistance : distanceOf dist br₂ with
    | error e => exact ⟨nofun, nofun⟩
    | ok r =>
      obtain ⟨distance, br₃⟩ := r
      simp only
      by_cases hzero : distance = 0
      · rw [if_pos hzero]
        exact ⟨nofun, nofun⟩
      by_cases hfar : s.cur < distance
      · rw [if_neg hzero, if_pos hfar]
        exact ⟨nofun, nofun⟩
      rw [if_neg hzero, if_neg hfar]
      have hroom := hfits distance length ⟨entry, br₁, br₂, br₃, hloaded, hliteral, hshort,
        not_not.mp hexc, hlength, hrefill, hdistance, by omega, by omega⟩
      refine ⟨fun w hw => ?_, ?_⟩
      · obtain rfl := List.mem_singleton.mp hw
        exact hroom
      · rintro _ ⟨⟩
        refine ⟨fun _ => ?_, nofun⟩
        have hle := (copyExtent_bounds hn distance length).1
        simp only
        omega

/-- A literal of the run, and the check where the run refills. -/
theorem room_literal (hlen : lits.length ≤ 288) (hlit : lit.Implements lits .litLen)
    (htake : LiteralsTake lits k) (hk : 0 < k) (hn32 : copyN ≤ 32) (hreads : Reads input lit s)
    (hroom : Room copyN k s) {entry : ℕ} (hloaded : s.loaded = some entry)
    (hliteral : entry &&& HUFFDEC_LITERAL ≠ 0) :
    (∀ w ∈ (step grow copyN lit dist s).1, w.Fits) ∧
      ∀ s', (step grow copyN lit dist s).2 = .ok (.inl s') → Room copyN k s' := by
  obtain ⟨run, hrun, hbits⟩ := hroom.run entry hloaded
  obtain ⟨⟨_, out, br⟩, cap, bs, rfl, hinv⟩ := hreads
  obtain ⟨-, hat, hentries⟩ := hinv
  simp only [stateOf] at hloaded hrun hbits ⊢
  subst hloaded
  obtain ⟨hguard, hentry⟩ := hentries entry rfl
  simp only at hat hguard
  have h15 : Unbounded.LIT_GUARD = 15 := rfl
  have h10 : LUT_BITS = 10 := rfl
  have hrun63 : run ≤ k * run := Nat.le_mul_of_pos_left run hk
  have hwide := hat.bits_le_length
  have hbs : LUT_BITS ≤ bs.length := by omega
  obtain ⟨hlong, hpos, hshort⟩ := literal_length hlen hlit htake hbs hentry hliteral
  have hcons := ((hat.holds hguard).consume (show entry &&& 0xff ≤ Unbounded.LIT_GUARD by omega)
    hpos).1
  have hleft : (br.consume (entry &&& 0xff)).bits = br.bits - (entry &&& 0xff) :=
    BitReader.consume_bits _ _
  have hstore : ∀ w ∈ [(⟨out.length, 1, cap⟩ : Write)], w.Fits := by
    intro w hw
    obtain rfl := List.mem_singleton.mp hw
    show out.length + 1 ≤ cap
    omega
  unfold step
  simp only [if_pos hliteral]
  by_cases hlow : (br.consume (entry &&& 0xff)).bits < Unbounded.LIT_GUARD
  · rw [if_pos hlow]
    rcases hcons.refillKernel with ⟨-, br₁, hok, hat₁, -⟩ | ⟨-, herr⟩
    · rw [hok]
      refine ⟨hstore, ?_⟩
      rintro _ ⟨⟩
      refine ⟨nofun, fun _ _ => ⟨0, ?_, ?_⟩⟩
      · exact ensureRoom_room hn32 (show out.length + 1 ≤ cap by omega)
      · simpa using hat₁.bits_le
    · rw [herr]
      exact ⟨hstore, nofun⟩
  · rw [if_neg hlow]
    refine ⟨hstore, ?_⟩
    rintro _ ⟨⟩
    refine ⟨nofun, fun _ _ => ⟨run + 1, ?_, ?_⟩⟩
    · simp only
      omega
    · simp only [Nat.mul_add, Nat.mul_one, hleft]
      omega

/-- No step but a fast copy leaves the room. -/
theorem room_step (hlen : lits.length ≤ 288) (hlit : lit.Implements lits .litLen)
    (htake : LiteralsTake lits k) (hk : 0 < k) (hn : 0 < copyN) (hn32 : copyN ≤ 32)
    (hreads : Reads input lit s) (hroom : Room copyN k s)
    (hfits : ∀ distance length, FastCopy dist s distance length →
      s.cur + copyExtent copyN distance length ≤ s.cap) :
    (∀ w ∈ (step grow copyN lit dist s).1, w.Fits) ∧
      ∀ s', (step grow copyN lit dist s).2 = .ok (.inl s') → Room copyN k s' := by
  cases hloaded : s.loaded with
  | none =>
    have hcur := hroom.top hloaded
    obtain ⟨⟨_, out, br⟩, cap, bs, rfl, hinv⟩ := hreads
    have hat := hinv.at_bits
    simp only [stateOf] at hloaded hcur hat ⊢
    subst hloaded
    unfold step
    simp only
    rcases hat.refillKernel with ⟨-, br₁, hok, hat₁, -⟩ | ⟨-, herr⟩
    · rw [hok]
      refine ⟨nofun, ?_⟩
      rintro _ ⟨⟩
      refine ⟨nofun, fun _ _ => ⟨0, ?_, ?_⟩⟩
      · exact ensureRoom_room hn32 hcur
      · simpa using hat₁.bits_le
    · rw [herr]
      exact ⟨nofun, nofun⟩
  | some entry =>
    by_cases hliteral : entry &&& HUFFDEC_LITERAL ≠ 0
    · exact room_literal hlen hlit htake hk hn32 hreads hroom hloaded hliteral
    obtain ⟨run, hrun, hbits⟩ := hroom.run entry hloaded
    have hrun63 : run ≤ k * run := Nat.le_mul_of_pos_left run hk
    unfold step
    simp only [hloaded, if_neg hliteral]
    by_cases hshort : entry &&& 0xff = 0
    · rw [if_pos hshort]
      cases lit.lookupLong s.br with
      | error e => exact ⟨nofun, nofun⟩
      | ok r => exact room_longSymbol hn hn32 (by omega)
    · rw [if_neg hshort]
      exact room_shortSymbol hn hloaded (not_not.mp hliteral) hshort hfits

/-- A run stays in the room if its fast copies do. -/
theorem room_reached (hlen : lits.length ≤ 288) (hlit : lit.Implements lits .litLen)
    (hdist : dist.Implements dists .dist) (htake : LiteralsTake lits k) (hk : 0 < k)
    (hn : 0 < copyN) (hn32 : copyN ≤ 32) (hreads : Reads input lit s) (hroom : Room copyN k s)
    (hfits : ∀ t, Reached grow copyN lit dist s t → Reads input lit t → Room copyN k t →
      ∀ distance length, FastCopy dist t distance length →
        t.cur + copyExtent copyN distance length ≤ t.cap) :
    ∀ t, Reached grow copyN lit dist s t → Reads input lit t ∧ Room copyN k t := by
  intro t ht
  induction ht with
  | refl => exact ⟨hreads, hroom⟩
  | tail hreached hstep ih =>
    obtain ⟨hreads', hroom'⟩ := ih
    exact ⟨reads_step hlen hlit hdist hreads' hstep, (room_step hlen hlit htake hk hn hn32 hreads'
      hroom' (hfits _ hreached hreads' hroom')).2 _ hstep⟩

/-- In such a run nothing leaves the vector. -/
theorem neverOverruns_of_fits (hlen : lits.length ≤ 288) (hlit : lit.Implements lits .litLen)
    (hdist : dist.Implements dists .dist) (htake : LiteralsTake lits k) (hk : 0 < k)
    (hn : 0 < copyN) (hn32 : copyN ≤ 32) (hreads : Reads input lit s) (hroom : Room copyN k s)
    (hfits : ∀ t, Reached grow copyN lit dist s t → Reads input lit t → Room copyN k t →
      ∀ distance length, FastCopy dist t distance length →
        t.cur + copyExtent copyN distance length ≤ t.cap) :
    NeverOverruns grow copyN lit dist s := by
  intro t ht
  obtain ⟨hreads', hroom'⟩ :=
    room_reached hlen hlit hdist htake hk hn hn32 hreads hroom hfits t ht
  exact ⟨hroom'.top, (room_step hlen hlit htake hk hn hn32 hreads' hroom'
    (hfits t ht hreads' hroom')).1⟩

/-- A fast copy is a store of its step. -/
theorem write_of_fastCopy {distance length : ℕ} (h : FastCopy dist s distance length) :
    ⟨s.cur, copyExtent copyN distance length, s.cap⟩ ∈ (step grow copyN lit dist s).1 := by
  obtain ⟨entry, br₁, br₂, br₃, hloaded, hliteral, hshort, hexc, hlength, hrefill, hdistance, hpos,
    hle⟩ := h
  unfold step shortSymbol
  simp only [hloaded, if_neg (not_not.mpr hliteral), if_neg hshort, if_neg (not_not.mpr hexc),
    hlength, hrefill, hdistance, if_neg (show ¬distance = 0 by omega),
    if_neg (show ¬s.cur < distance by omega)]
  exact List.mem_singleton.mpr rfl

/-- The start of a block has its headroom. -/
theorem start_room (copyN k : ℕ) {len capacity : ℕ} (hcap : len ≤ capacity) (br : BitReader) :
    Room copyN k (start grow len capacity br) := by
  refine ⟨fun _ => ?_, nofun⟩
  have henough := grow.enough capacity len HEADROOM
  simp only [start]
  split <;> omega

/-- The kernel starts at a place of the input. -/
theorem start_reads {br : BitReader} {bs : List Bool} (hat : br.At input bs) (len capacity : ℕ) :
    Reads input lit (start grow len capacity br) :=
  ⟨⟨none, List.replicate len 0, br⟩, (start grow len capacity br).cap, bs,
    by simp only [stateOf, start, List.length_replicate], rfl, hat, nofun⟩

/-- A fast copy is at most 258 bytes long. -/
theorem fastCopy_length_le (hlen : lits.length ≤ 288) (hlit : lit.Implements lits .litLen)
    (hreads : Reads input lit s) {distance length : ℕ} (h : FastCopy dist s distance length) :
    length ≤ 258 := by
  obtain ⟨entry, br₁, -, -, hloaded, hliteral, hshort, hexc, hlength, -⟩ := h
  obtain ⟨⟨_, out, br⟩, cap, bs, rfl, hinv⟩ := hreads
  obtain ⟨-, hat, hentries⟩ := hinv
  simp only [stateOf] at hloaded hlength
  subst hloaded
  obtain ⟨hguard, hentry⟩ := hentries entry rfl
  simp only at hat hguard
  have h15 : Unbounded.LIT_GUARD = 15 := rfl
  have h10 : LUT_BITS = 10 := rfl
  have hwide := hat.bits_le_length
  have hbs : LUT_BITS ≤ bs.length := by omega
  rcases hlit.lut_cases bs hbs with ⟨sym, hdec, hle, hpos, hlut⟩ | ⟨-, hlut⟩
  swap
  · rw [hentry, hlut, Nat.zero_and] at hshort
    exact absurd rfl hshort
  have hlt := (Canonical.decode_some hdec).1
  have hle15 : lits.getD sym 0 ≤ 15 := by omega
  have hshape := litLen_entry (show sym < 2 ^ 15 by omega) hle15
  rw [← hlut, ← hentry] at hshape
  cases hsym : litLen sym with
  | literal b =>
    rw [hsym] at hshape
    exact absurd hliteral hshape.1
  | endOfBlock =>
    rw [hsym] at hshape
    exact absurd hexc hshape.2.1
  | reserved =>
    rw [hsym] at hshape
    exact absurd hexc hshape.2.1
  | length base extra =>
    rw [hsym] at hshape
    obtain ⟨-, -, hbase, hextra⟩ := hshape
    obtain ⟨-, -, hextra5, hmax⟩ := litLen_length_bounds hsym
    have hcode : entry &&& 0xff = lits.getD sym 0 := by
      rw [hentry, hlut, encodeEntry_length sym .litLen hle15]
    obtain ⟨hat₁, hbits₁⟩ := (hat.holds hguard).consume
      (show entry &&& 0xff ≤ Unbounded.LIT_GUARD by omega) (by omega)
    obtain ⟨v, br₂, hread, htake, -⟩ := hat₁.takeExtra base extra (by omega)
    have hv := readBits_lt hread
    rw [lengthOf, hbase, hextra, htake, Prod.mk.injEq] at hlength
    omega

/-- Without a literal of one bit, nothing leaves the output. -/
theorem neverOverruns_of_literalsTake (grow : Reserve) {copyN : ℕ}
    (hn : copyN = 16 ∨ copyN = 32) {lits dists : List ℕ} {lit dist : HuffmanDecoder}
    (hlen : lits.length ≤ 288) (hlit : fromLengthsLitlen lits = .ok lit)
    (hdist : fromLengthsDist dists = .ok dist) (htake : LiteralsTake lits 2) {input : List UInt8}
    {br : BitReader} {bs : List Bool} (hat : br.At input bs) {len capacity : ℕ}
    (hcap : len ≤ capacity) :
    NeverOverruns grow copyN lit dist (start grow len capacity br) := by
  have himpl := (buildInto_inv hlit).1
  refine neverOverruns_of_fits hlen himpl (buildInto_inv hdist).1 htake (by decide)
    (by omega) (by omega) (start_reads hat len capacity) (start_room copyN 2 hcap br) ?_
  intro t _ hreads hroom distance length hcopy
  have hle := fastCopy_length_le hlen himpl hreads hcopy
  have hextent := (copyExtent_bounds (show 0 < copyN by omega) distance length).2
  obtain ⟨entry, -, -, -, hloaded, -⟩ := hcopy
  obtain ⟨run, hrun, hbits⟩ := hroom.run entry hloaded
  obtain ⟨p, cap, bs', rfl, hinv⟩ := hreads
  have hguard := (hinv.loaded entry hloaded).1
  have h15 : Unbounded.LIT_GUARD = 15 := rfl
  simp only [stateOf] at hbits hrun ⊢
  omega

/-! ## Runs of literals -/

/-- Behind a copy nothing is loaded. -/
theorem loaded_decodeDistanceAndCopy {length cur cap : ℕ} {br : BitReader}
    (h : (decodeDistanceAndCopy grow copyN dist length cur cap br).2 = .ok (.inl s')) :
    s'.loaded = none := by
  unfold decodeDistanceAndCopy at h
  cases hrefill : br.refillKernel with
  | error e =>
    rw [hrefill] at h
    cases h
  | ok br₁ =>
    rw [hrefill] at h
    simp only at h
    split at h
    · cases h
    · split at h
      · cases h
      · cases h
        rfl

/-- Behind a symbol among the long codes nothing is loaded. -/
theorem loaded_longSymbol {e cur cap : ℕ} {br : BitReader}
    (h : (longSymbol grow copyN dist e cur cap br).2 = .ok (.inl s')) : s'.loaded = none := by
  unfold longSymbol at h
  split at h
  · cases h
    rfl
  · split at h
    · split at h <;> cases h
    · split at h
      · cases h
      · exact loaded_decodeDistanceAndCopy h

/-- Behind a symbol of the table nothing is loaded. -/
theorem loaded_shortSymbol {entry cur cap : ℕ} {br : BitReader}
    (h : (shortSymbol copyN dist entry cur cap br).2 = .ok (.inl s')) : s'.loaded = none := by
  unfold shortSymbol at h
  simp only at h
  split at h
  · split at h <;> cases h
  · split at h
    · cases h
    · split at h
      · cases h
      · split at h
        · cases h
        · split at h
          · cases h
          · cases h
            rfl

/-- A step loads an entry, stores a literal of a run, or goes back to the top. -/
theorem step_cases (h : (step grow copyN lit dist s).2 = .ok (.inl s')) :
    (s.loaded = none ∧ s'.cur = s.cur ∧ s'.cap = ensureRoom grow copyN s.cur s.cap) ∨
    (Refills s ∧ (⟨s.cur, 1, s.cap⟩ : Write) ∈ (step grow copyN lit dist s).1 ∧
      s'.cur = s.cur + 1 ∧ s'.cap = ensureRoom grow copyN (s.cur + 1) s.cap) ∨
    (∃ entry, s.loaded = some entry ∧ entry &&& HUFFDEC_LITERAL ≠ 0 ∧
      ¬(s.br.consume (entry &&& 0xff)).bits < Unbounded.LIT_GUARD ∧ s'.cur = s.cur + 1 ∧
      s'.cap = s.cap) ∨
    s'.loaded = none := by
  unfold step at h ⊢
  cases hloaded : s.loaded with
  | none =>
    rw [hloaded] at h
    simp only at h ⊢
    cases hrefill : s.br.refillKernel with
    | error e =>
      rw [hrefill] at h
      cases h
    | ok br =>
      rw [hrefill] at h
      cases h
      exact Or.inl ⟨trivial, rfl, rfl⟩
  | some entry =>
    rw [hloaded] at h
    simp only at h ⊢
    by_cases hliteral : entry &&& HUFFDEC_LITERAL ≠ 0
    · rw [if_pos hliteral] at h ⊢
      by_cases hlow : (s.br.consume (entry &&& 0xff)).bits < Unbounded.LIT_GUARD
      · rw [if_pos hlow] at h ⊢
        cases hrefill : (s.br.consume (entry &&& 0xff)).refillKernel with
        | error e =>
          rw [hrefill] at h
          cases h
        | ok br =>
          rw [hrefill] at h
          cases h
          exact Or.inr (Or.inl ⟨⟨entry, hloaded, hliteral, hlow⟩, List.mem_singleton.mpr rfl, rfl,
            rfl⟩)
      · rw [if_neg hlow] at h
        cases h
        exact Or.inr (Or.inr (Or.inl ⟨entry, rfl, hliteral, hlow, rfl, rfl⟩))
    · rw [if_neg hliteral] at h
      refine Or.inr (Or.inr (Or.inr ?_))
      by_cases hlong : entry &&& 0xff = 0
      · rw [if_pos hlong] at h
        cases hlook : lit.lookupLong s.br with
        | error e =>
          rw [hlook] at h
          cases h
        | ok r =>
          rw [hlook] at h
          exact loaded_longSymbol h
      · rw [if_neg hlong] at h
        exact loaded_shortSymbol h

/-- A run of literals advances the cursor and leaves the capacity alone. -/
theorem LiteralRun.cur_eq {c t : State} {n : ℕ} (h : LiteralRun grow copyN lit dist c n t) :
    t.cur = c.cur + n ∧ t.cap = c.cap := by
  induction h with
  | nil => exact ⟨rfl, rfl⟩
  | @snoc n t t' entry _ hloaded hliteral hbits hstep ih =>
    unfold step at hstep
    rw [hloaded] at hstep
    simp only [if_pos hliteral, if_neg hbits] at hstep
    cases hstep
    exact ⟨by rw [ih.1, Nat.add_assoc], ih.2⟩

/-- A run of literals is a run of the kernel. -/
theorem LiteralRun.reached {c t : State} {n : ℕ} (h : LiteralRun grow copyN lit dist c n t) :
    Reached grow copyN lit dist c t := by
  induction h with
  | nil => exact .refl
  | snoc _ _ _ _ hstep ih => exact ih.tail hstep

/-- A loaded state stands in a run of literals that starts from a check with its room. -/
def InRun (grow : Reserve) (copyN : ℕ) (lit dist : HuffmanDecoder) (s t : State) : Prop :=
  t.loaded ≠ none → ∃ u c n, Reached grow copyN lit dist s u ∧ Checks grow copyN lit dist u c ∧
    LiteralRun grow copyN lit dist c n t ∧ c.cur + 288 + copyN ≤ c.cap

/-- A step stays in the run of literals, or starts one with room. -/
theorem inRun_step {s t t' : State} (hn32 : copyN ≤ 32) (ht : Reached grow copyN lit dist s t)
    (htop : t.loaded = none → t.cur ≤ t.cap)
    (hwrites : ∀ w ∈ (step grow copyN lit dist t).1, w.Fits)
    (hin : InRun grow copyN lit dist s t) (hstep : (step grow copyN lit dist t).2 = .ok (.inl t')) :
    InRun grow copyN lit dist s t' := by
  intro hloaded'
  rcases step_cases hstep with ⟨hnone, hcur, hcap⟩ | ⟨hrefills, hwrite, hcur, hcap⟩ |
    ⟨entry, hloaded, hliteral, hbits, -, -⟩ | hnone
  · refine ⟨t, t', 0, ht, ⟨Or.inl hnone, hstep⟩, .nil, ?_⟩
    rw [hcur, hcap]
    exact ensureRoom_room hn32 (htop hnone)
  · refine ⟨t, t', 0, ht, ⟨Or.inr hrefills, hstep⟩, .nil, ?_⟩
    rw [hcur, hcap]
    exact ensureRoom_room hn32 (hwrites _ hwrite)
  · obtain ⟨u, c, n, hu, hcheck, hrun, hroom⟩ := hin (by rw [hloaded]; nofun)
    exact ⟨u, c, n + 1, hu, hcheck, .snoc hrun hloaded hliteral hbits hstep, hroom⟩
  · exact absurd hnone hloaded'

/-- Up to 32 literals and a match fit in what a check leaves, and longer runs fit by
assumption. -/
theorem fits_of_inRun (hn : copyN = 16 ∨ copyN = 32) (hlen : lits.length ≤ 288)
    (hlit : lit.Implements lits .litLen) (hfits : LongRunsFit grow copyN lit dist s) {t : State}
    (hreads : Reads input lit t) (hin : InRun grow copyN lit dist s t) {distance length : ℕ}
    (hcopy : FastCopy dist t distance length) :
    t.cur + copyExtent copyN distance length ≤ t.cap := by
  have hle := fastCopy_length_le hlen hlit hreads hcopy
  have hextent := copyExtent_le hn distance hle
  obtain ⟨entry, -, -, -, hloaded, -⟩ := hcopy.imp fun entry h => h
  obtain ⟨u, c, n, hu, hcheck, hrun, hroom⟩ := hin (by rw [hloaded]; nofun)
  obtain ⟨hcur, hcap⟩ := hrun.cur_eq
  by_cases hlong : 33 ≤ n
  · have := hfits u c n t hu hcheck hrun hlong distance length hcopy
    omega
  · omega

/-- A run whose long runs of literals fit stays in the vector. -/
theorem neverOverruns_of_longRunsFit (hn : copyN = 16 ∨ copyN = 32) (hlen : lits.length ≤ 288)
    (hlit : lit.Implements lits .litLen) (hdist : dist.Implements dists .dist)
    (hloaded : s.loaded = none) (hreads : Reads input lit s) (hroom : Room copyN 1 s)
    (hfits : LongRunsFit grow copyN lit dist s) : NeverOverruns grow copyN lit dist s := by
  have hstep {t : State} (hreads : Reads input lit t) (hroom : Room copyN 1 t)
      (hin : InRun grow copyN lit dist s t) : (∀ w ∈ (step grow copyN lit dist t).1, w.Fits) ∧
        ∀ t', (step grow copyN lit dist t).2 = .ok (.inl t') → Room copyN 1 t' :=
    room_step hlen hlit (literalsTake_one lits) Nat.one_pos (show 0 < copyN by omega)
      (show copyN ≤ 32 by omega) hreads hroom fun distance length hcopy =>
        fits_of_inRun hn hlen hlit hfits hreads hin hcopy
  have hreached : ∀ t, Reached grow copyN lit dist s t →
      Reads input lit t ∧ Room copyN 1 t ∧ InRun grow copyN lit dist s t := by
    intro t ht
    induction ht with
    | refl => exact ⟨hreads, hroom, fun h => absurd hloaded h⟩
    | tail hu hnext ih =>
      obtain ⟨hreads', hroom', hin⟩ := ih
      obtain ⟨hwrites, hnextRoom⟩ := hstep hreads' hroom' hin
      exact ⟨reads_step hlen hlit hdist hreads' hnext, hnextRoom _ hnext,
        inRun_step (by omega) hu hroom'.top hwrites hin hnext⟩
  intro t ht
  obtain ⟨hreads', hroom', hin⟩ := hreached t ht
  exact ⟨hroom'.top, (hstep hreads' hroom' hin).1⟩

/-- In a run that stays in the vector the long runs of literals fit. -/
theorem longRunsFit_of_neverOverruns (h : NeverOverruns grow copyN lit dist s) :
    LongRunsFit grow copyN lit dist s := by
  intro u c n t hu hcheck hrun _ distance length hcopy
  have hfits : t.cur + copyExtent copyN distance length ≤ t.cap :=
    (h t ((hu.tail hcheck.2).trans hrun.reached)).2 _ (write_of_fastCopy hcopy)
  obtain ⟨hcur, hcap⟩ := hrun.cur_eq
  omega

/-- Long runs of literals fit exactly where the kernel never overruns. -/
theorem longRunsFit_iff (grow : Reserve) (hn : copyN = 16 ∨ copyN = 32)
    (hlen : lits.length ≤ 288) (hlit : fromLengthsLitlen lits = .ok lit)
    (hdist : fromLengthsDist dists = .ok dist) {br : BitReader} {bs : List Bool}
    (hat : br.At input bs) {len capacity : ℕ} (hcap : len ≤ capacity) :
    LongRunsFit grow copyN lit dist (start grow len capacity br) ↔
      NeverOverruns grow copyN lit dist (start grow len capacity br) :=
  ⟨neverOverruns_of_longRunsFit hn hlen (buildInto_inv hlit).1 (buildInto_inv hdist).1 rfl
    (start_reads hat len capacity) (start_room copyN 1 hcap br), longRunsFit_of_neverOverruns⟩

/-- The preload kernel keeps to its output exactly where its long runs of literals fit. -/
theorem neverOverruns_iff (grow : Reserve) {copyN : ℕ} (hn : copyN = 16 ∨ copyN = 32)
    {lits dists : List ℕ} {lit dist : HuffmanDecoder} (hlen : lits.length ≤ 288)
    (hlit : fromLengthsLitlen lits = .ok lit) (hdist : fromLengthsDist dists = .ok dist)
    {input : List UInt8} {br : BitReader} {bs : List Bool} (hat : br.At input bs)
    {len capacity : ℕ} (hcap : len ≤ capacity) :
    NeverOverruns grow copyN lit dist (start grow len capacity br) ↔
      LongRunsFit grow copyN lit dist (start grow len capacity br) :=
  (longRunsFit_iff grow hn hlen hlit hdist hat hcap).symm

end Room

/-! ## An overrun -/

/-- Some steps of a run. -/
def runSteps (grow : Reserve) (copyN : ℕ) (lit dist : HuffmanDecoder) : ℕ → State → Option State
  | 0, s => some s
  | n + 1, s =>
    match (step grow copyN lit dist s).2 with
    | .ok (.inl s') => runSteps grow copyN lit dist n s'
    | _ => none

/-- Steps that were run are reached. -/
theorem reached_of_runSteps {grow : Reserve} {copyN : ℕ} {lit dist : HuffmanDecoder} {n : ℕ}
    {s t : State} (h : runSteps grow copyN lit dist n s = some t) :
    Reached grow copyN lit dist s t := by
  induction n generalizing s with
  | zero =>
    cases h
    exact .refl
  | succ n ih =>
    rw [runSteps] at h
    split at h
    · rename_i s' hstep
      exact .head hstep (ih h)
    · cases h

/-- One bit for the literal 0, and codes for the lengths 258 and 163 to 194. -/
def overrunLits : List ℕ :=
  1 :: List.replicate 255 0 ++ [3] ++ List.replicate 25 0 ++ [2, 0, 0, 3]

/-- One code, for the distances 257 to 384. -/
def overrunDists : List ℕ := List.replicate 16 0 ++ [1]

/-- Fourteen matches of 258 bytes and one of 180, 48 literals, and a match of 258 bytes. -/
def overrunInput : List UInt8 :=
  [23, 184, 192, 5, 46, 112, 129, 11, 92, 224, 2, 23, 184, 192, 5, 46, 112, 129, 11, 20, 5, 0,
    0, 0, 0, 0, 0, 46, 0, 0, 0, 0, 0, 0, 0, 0, 0, 0, 0, 0, 0, 0, 0, 0, 0]

/-- Run to the end, and check every store and every top of the loop. -/
def checkRun (grow : Reserve) (copyN : ℕ) (lit dist : HuffmanDecoder) : ℕ → State → Bool
  | 0, _ => false
  | n + 1, s =>
    (s.loaded.isSome || decide (s.cur ≤ s.cap)) &&
      (step grow copyN lit dist s).1.all (fun w => decide w.Fits) &&
      match (step grow copyN lit dist s).2 with
      | .ok (.inl s') => checkRun grow copyN lit dist n s'
      | _ => true

/-- A run that was checked to its end does not overrun. -/
theorem neverOverruns_of_checkRun {grow : Reserve} {copyN : ℕ} {lit dist : HuffmanDecoder} {n : ℕ}
    {s : State} (h : checkRun grow copyN lit dist n s = true) :
    NeverOverruns grow copyN lit dist s := by
  induction n generalizing s with
  | zero => cases h
  | succ n ih =>
    rw [checkRun, Bool.and_eq_true, Bool.and_eq_true, Bool.or_eq_true, List.all_eq_true] at h
    obtain ⟨⟨htop, hwrites⟩, hrest⟩ := h
    intro t ht
    rcases ht.cases_head with rfl | ⟨s', hnext, ht'⟩
    · refine ⟨fun hnone => ?_, fun w hw => of_decide_eq_true (hwrites w hw)⟩
      rw [hnone] at htop
      exact of_decide_eq_true (htop.resolve_left nofun)
    · rw [hnext] at hrest
      exact ih hrest t ht'

/-- The decoders of the two code length lists, and a Boolean of them. -/
def withDecoders (p : HuffmanDecoder → HuffmanDecoder → Bool) (lits dists : List ℕ) : Bool :=
  match fromLengthsLitlen lits, fromLengthsDist dists with
  | .ok lit, .ok dist => p lit dist
  | _, _ => false

/-- What was checked with the decoders of two codes holds of these decoders. -/
theorem exists_of_withDecoders {p : HuffmanDecoder → HuffmanDecoder → Bool} {lits dists : List ℕ}
    (h : withDecoders p lits dists = true) : ∃ lit dist, fromLengthsLitlen lits = .ok lit ∧
      fromLengthsDist dists = .ok dist ∧ p lit dist = true := by
  unfold withDecoders at h
  split at h
  · next lit dist hlit hdist => exact ⟨lit, dist, hlit, hdist, h⟩
  · cases h

/-- With a capacity of 4354 the last match starts with 256 bytes of room, and stores 272. -/
theorem overrunInput_overruns :
    withDecoders (fun lit dist => ((runSteps amortized 16 lit dist 79
      (start amortized 258 4354 (BitReader.new overrunInput))).map fun t =>
        (step amortized 16 lit dist t).1) == some [⟨4098, 272, 4354⟩]) overrunLits overrunDists =
      true := by
  decide +kernel

/-- With a capacity of 4371 it has room. -/
theorem overrunInput_fits :
    withDecoders (fun lit dist => checkRun amortized 16 lit dist 200
      (start amortized 258 4371 (BitReader.new overrunInput))) overrunLits overrunDists = true := by
  decide +kernel

/-- A store that does not fit, after some steps, is an overrun. -/
theorem not_neverOverruns_of_runSteps {grow : Reserve} {copyN n : ℕ} {lit dist : HuffmanDecoder}
    {s : State} {w : Write} (h : ((runSteps grow copyN lit dist n s).map fun t =>
      (step grow copyN lit dist t).1) = some [w]) (hw : ¬w.Fits) :
    ¬NeverOverruns grow copyN lit dist s := by
  obtain ⟨t, ht, hwrites⟩ := Option.map_eq_some_iff.mp h
  intro hnever
  exact hw ((hnever t (reached_of_runSteps ht)).2 w (hwrites ▸ List.mem_singleton.mpr rfl))

/-- The last match starts with 256 bytes of room. -/
theorem overrunInput_not_neverOverruns :
    ∃ lit dist, fromLengthsLitlen overrunLits = .ok lit ∧ fromLengthsDist overrunDists = .ok dist ∧
      ¬NeverOverruns amortized 16 lit dist
        (start amortized 258 4354 (BitReader.new overrunInput)) := by
  obtain ⟨lit, dist, hlit, hdist, hrun⟩ := exists_of_withDecoders overrunInput_overruns
  exact ⟨lit, dist, hlit, hdist,
    not_neverOverruns_of_runSteps (beq_iff_eq.mp hrun) (by decide)⟩

/-- The same block, with a capacity that is too small and with one that is enough. -/
theorem neverOverruns_iff_overrunInput :
    ∃ lit dist, fromLengthsLitlen overrunLits = .ok lit ∧ fromLengthsDist overrunDists = .ok dist ∧
      (¬NeverOverruns amortized 16 lit dist
          (start amortized 258 4354 (BitReader.new overrunInput)) ∧
        ¬LongRunsFit amortized 16 lit dist
          (start amortized 258 4354 (BitReader.new overrunInput))) ∧
      NeverOverruns amortized 16 lit dist
          (start amortized 258 4371 (BitReader.new overrunInput)) ∧
        LongRunsFit amortized 16 lit dist
          (start amortized 258 4371 (BitReader.new overrunInput)) := by
  obtain ⟨lit, dist, hlit, hdist, hrun⟩ := exists_of_withDecoders overrunInput_overruns
  obtain ⟨lit', dist', hlit', hdist', hcheck⟩ := exists_of_withDecoders overrunInput_fits
  obtain rfl : lit = lit' := Except.ok.inj (hlit.symm.trans hlit')
  obtain rfl : dist = dist' := Except.ok.inj (hdist.symm.trans hdist')
  have hover := not_neverOverruns_of_runSteps (beq_iff_eq.mp hrun) (by decide)
  have hfits := neverOverruns_of_checkRun hcheck
  have hiff {capacity : ℕ} (hcap : 258 ≤ capacity) := neverOverruns_iff amortized
    (show 16 = 16 ∨ 16 = 32 from Or.inl rfl) (by decide +kernel) hlit hdist
    (BitReader.new_at overrunInput) hcap
  exact ⟨lit, dist, hlit, hdist, ⟨hover, fun h => hover ((hiff (by decide)).mpr h)⟩, hfits,
    (hiff (by decide)).mp hfits⟩

end PreloadRoom

end RustyRapidgzip
