import RustyRapidgzip.Deflate.Preload

/-!
# Whole members through an external engine

The optional backends decode a whole deflate stream in one call and cannot stop inside it.
They share the loop around the call: the output gets room, the engine writes into it, and
where the room was too small the output grows and the engine starts again. They differ in
how the engine is called and in how its answer is read.
-/

namespace RustyRapidgzip

namespace Backend

/-- How one call of an engine ends. -/
inductive Attempt where
  | success (newEndBit : ℕ) (made : List UInt8)
  | overflow
  | failure (msg : String)

/-- What a member decode reports: the byte-aligned end and the flag, or that the member goes
on past the hint. -/
inductive Outcome where
  | done (endBit : ℕ) (hitBfinal : Bool)
  | straddle
  deriving DecidableEq, Repr

/-- The room that is reserved first. -/
def FIRST_WANT : ℕ := 16 * 1024 * 1024

/-- `Vec::set_len` after an engine has written behind the bytes. An engine that keeps to its room
leaves the capacity as it is. -/
def commit (out : OutVec) (made : List UInt8) : OutVec :=
  OutVec.ofBytes (out.bytes ++ made) out.capacity

/-- The retry loop: the output, and the room that was last asked for. -/
structure Retry where
  out : OutVec
  want : ℕ

/-- The loop before the first call. -/
def start (grow : Reserve) (out : OutVec) : Retry := ⟨out.reserve grow FIRST_WANT, FIRST_WANT⟩

/-- Ask for twice the room. -/
def regrow (grow : Reserve) (s : Retry) : Retry :=
  let want := max (s.out.room * 2) (s.want * 2)
  ⟨s.out.reserve grow want, want⟩

/-- One call of the engine. Nothing is committed unless the member ends before the hint. -/
def round (grow : Reserve) (attempt : ℕ → Attempt) (endBitHint : ℕ) (s : Retry) :
    Except DeflateError (Retry ⊕ (Outcome × OutVec)) :=
  match attempt s.out.room with
  | .success newEndBit made =>
    if endBitHint < newEndBit then .ok (.inr (.straddle, s.out))
    else .ok (.inr (.done newEndBit true, commit s.out made))
  | .overflow => .ok (.inl (regrow grow s))
  | .failure msg => .error (.invalid msg)

/-- Decode the member at a byte with an engine that is given the byte, what follows it and
the room. The loop has no bound of its own, so the rounds are a parameter. -/
def decodeMember (grow : Reserve) (attempt : ℕ → List UInt8 → ℕ → Attempt) (rounds : ℕ)
    (body : List UInt8) (startBit endBitHint : ℕ) (out : OutVec) :
    Except DeflateError (Outcome × OutVec) :=
  let bytePos := startBit / 8
  if body.length ≤ bytePos then .error .unexpectedEof
  else Loop.iterate .outOfFuel (round grow (attempt bytePos (body.drop bytePos)) endBitHint) rounds
    (start grow out)

/-- Decode a later member of a chunk: with the engine, or with the preload kernel where the
member goes on past the hint. The kernel gets the output as the engine's calls have left it. -/
def decodeSubsequentMember (build : Build)
    (decode : List UInt8 → ℕ → ℕ → OutVec → Except DeflateError (Outcome × OutVec))
    (body : List UInt8) (pos endBitHint : ℕ) (out : OutVec) :
    Except (Stop DeflateError) ((ℕ × Bool) × OutVec) := do
  let (outcome, out) ← Stop.lift (decode body pos endBitHint out)
  match outcome with
  | .done endBit hitBfinal => .ok ((endBit, hitBfinal), out)
  | .straddle => Preload.decodeMemberU8Preload build body pos endBitHint out

/-! ## The growing output -/

/-- The loop before its `k`-th retry, were every call to overflow. -/
def retries (grow : Reserve) (out : OutVec) : ℕ → Retry
  | 0 => start grow out
  | k + 1 => regrow grow (retries grow out k)

/-- The room of the `k`-th retry. -/
def roomAt (grow : Reserve) (out : OutVec) (k : ℕ) : ℕ := (retries grow out k).out.room

section Retries

variable {grow : Reserve} {out : OutVec}

/-- A retry keeps the bytes. -/
@[simp] theorem retries_bytes (k : ℕ) : (retries grow out k).out.bytes = out.bytes := by
  induction k with
  | zero => rfl
  | succ k ih => simpa [retries, regrow] using ih

/-- The first attempt has its room. -/
theorem roomAt_zero (grow : Reserve) (out : OutVec) : FIRST_WANT ≤ roomAt grow out 0 :=
  OutVec.le_room_reserve grow out FIRST_WANT

/-- Every retry has at least twice the room. -/
theorem roomAt_succ (grow : Reserve) (out : OutVec) (k : ℕ) :
    2 * roomAt grow out k ≤ roomAt grow out (k + 1) := by
  have hwant := OutVec.le_room_reserve grow (retries grow out k).out
    (max ((retries grow out k).out.room * 2) ((retries grow out k).want * 2))
  have hroom := (Nat.le_max_left _ _).trans hwant
  rw [Nat.mul_comm]
  exact hroom

/-- No attempt is without room. -/
theorem roomAt_pos (grow : Reserve) (out : OutVec) (k : ℕ) : 0 < roomAt grow out k := by
  induction k with
  | zero =>
    have hfirst := roomAt_zero grow out
    have hpos : 0 < FIRST_WANT := by decide
    omega
  | succ k ih =>
    have hsucc := roomAt_succ grow out k
    omega

/-- Each attempt has more room than the one before it. -/
theorem le_roomAt (grow : Reserve) (out : OutVec) (k : ℕ) : k ≤ roomAt grow out k := by
  induction k with
  | zero => exact Nat.zero_le _
  | succ k ih =>
    have hsucc := roomAt_succ grow out k
    have hpos := roomAt_pos grow out k
    omega

/-- Some attempt has room for any size. -/
theorem exists_le_roomAt (grow : Reserve) (out : OutVec) (size : ℕ) :
    ∃ k, size ≤ roomAt grow out k :=
  ⟨size, le_roomAt grow out size⟩

/-- The first retry with room for `size` bytes. -/
def firstRetry (grow : Reserve) (out : OutVec) (size : ℕ) : ℕ :=
  Nat.find (exists_le_roomAt grow out size)

/-- The output with the memory it has when an engine that needs `size` bytes succeeds. -/
def grown (grow : Reserve) (out : OutVec) (size : ℕ) : OutVec :=
  (retries grow out (firstRetry grow out size)).out

/-- Growing keeps the bytes. -/
@[simp] theorem grown_bytes (size : ℕ) : (grown grow out size).bytes = out.bytes :=
  retries_bytes _

/-- The first attempt with room comes no later than its size. -/
theorem firstRetry_le (grow : Reserve) (out : OutVec) (size : ℕ) :
    firstRetry grow out size ≤ size :=
  Nat.find_min' _ (le_roomAt grow out size)

/-- The memory after the first reservation, where vectors grow by doubling. -/
def firstCapacity (out : OutVec) : ℕ :=
  if out.bytes.length + FIRST_WANT ≤ out.capacity then out.capacity
  else max (2 * out.capacity) (out.bytes.length + FIRST_WANT)

/-- The vector of the first attempt has this capacity, with growth by doubling. -/
theorem firstCapacity_eq (out : OutVec) :
    (start amortized out).out.capacity = firstCapacity out := rfl

/-- The first capacity leaves room for the first attempt. -/
theorem length_le_firstCapacity (out : OutVec) :
    out.bytes.length + FIRST_WANT ≤ firstCapacity out := by
  unfold firstCapacity
  split <;> omega

/-- Where vectors grow by doubling, a retry doubles the memory. It asks for twice the room, which
is less. -/
theorem regrow_amortized {s : Retry} (hroom : 0 < s.out.room) (hwant : s.want ≤ s.out.room) :
    (regrow amortized s).out.capacity = 2 * s.out.capacity ∧
      (regrow amortized s).want ≤ (regrow amortized s).out.room := by
  have hfits := s.out.fits
  have hasks : max (s.out.room * 2) (s.want * 2) = 2 * s.out.room := by omega
  have hcapacity : (s.out.reserve amortized (2 * s.out.room)).capacity = 2 * s.out.capacity := by
    have hgrows : ¬s.out.bytes.length + 2 * s.out.room ≤ s.out.capacity := by
      rw [OutVec.room] at hroom ⊢
      omega
    refine (if_neg hgrows).trans ?_
    rw [OutVec.room]
    omega
  refine ⟨?_, OutVec.le_room_reserve amortized s.out _⟩
  simp only [regrow, hasks, hcapacity]

/-- With growth by doubling each retry doubles the capacity, and wants no more than its room. -/
theorem retries_amortized (out : OutVec) (k : ℕ) :
    (retries amortized out k).out.capacity = 2 ^ k * firstCapacity out ∧
      (retries amortized out k).want ≤ (retries amortized out k).out.room := by
  induction k with
  | zero =>
    rw [Nat.pow_zero, Nat.one_mul]
    exact ⟨firstCapacity_eq out, OutVec.le_room_reserve amortized out FIRST_WANT⟩
  | succ k ih =>
    obtain ⟨hcapacity, hwant⟩ := ih
    obtain ⟨hnext, hwant'⟩ := regrow_amortized (roomAt_pos amortized out k) hwant
    refine ⟨hnext.trans ?_, hwant'⟩
    rw [hcapacity, Nat.pow_succ, Nat.mul_comm (2 ^ k) 2, Nat.mul_assoc]

/-- The room of the `k`-th retry, where vectors grow by doubling. -/
theorem roomAt_amortized (out : OutVec) (k : ℕ) :
    roomAt amortized out k = 2 ^ k * firstCapacity out - out.bytes.length := by
  rw [roomAt, OutVec.room, retries_bytes, (retries_amortized out k).1]

end Retries

/-! ## Runs of the retry loop -/

/-- The engine asks for more room and the loop goes round. -/
def Retries (grow : Reserve) (attempt : ℕ → Attempt) (endBitHint : ℕ) (s s' : Retry) : Prop :=
  round grow attempt endBitHint s = .ok (.inl s')

/-- A call that succeeds in enough room and overflows in less. The engine sees `avail` of the
room. -/
structure Needs (attempt : ℕ → Attempt) (avail : ℕ → ℕ) (size : ℕ) : Prop where
  success : ∀ room, size ≤ avail room → ∃ newEndBit made, attempt room = .success newEndBit made
  overflow : ∀ room, avail room < size → attempt room = .overflow

/-- Every retry shows the engine more room, and the loop ends with an outcome. -/
structure Progresses (grow : Reserve) (attempt : ℕ → List UInt8 → ℕ → Attempt) (avail : ℕ → ℕ)
    (body : List UInt8) (startBit endBitHint : ℕ) (out : OutVec) : Prop where
  grows : ∀ s s', Relation.ReflTransGen
      (Retries grow (attempt (startBit / 8) (body.drop (startBit / 8))) endBitHint)
      (start grow out) s →
    Retries grow (attempt (startBit / 8) (body.drop (startBit / 8))) endBitHint s s' →
    avail s.out.room < avail s'.out.room
  ends : ∃ rounds r, decodeMember grow attempt rounds body startBit endBitHint out = .ok r

/-- Some retry shows the engine room for `size` bytes, and the retries before it show it more
and more. -/
def Climbs (grow : Reserve) (avail : ℕ → ℕ) (out : OutVec) (size : ℕ) : Prop :=
  ∃ k, size ≤ avail (roomAt grow out k) ∧
    ∀ i < k, avail (roomAt grow out i) < avail (roomAt grow out (i + 1))

section Rounds

variable {grow : Reserve} {attempt : ℕ → Attempt} {endBitHint : ℕ} {out : OutVec}

/-- A success ends the loop, and straddles if it ends behind the hint. -/
theorem round_success (grow : Reserve) (endBitHint : ℕ) {s : Retry} {newEndBit : ℕ}
    {made : List UInt8} (h : attempt s.out.room = .success newEndBit made) :
    round grow attempt endBitHint s = .ok (.inr
      (if endBitHint < newEndBit then (.straddle, s.out)
      else (.done newEndBit true, commit s.out made))) := by
  simp only [round, h]
  split <;> rfl

/-- An overflow retries with a larger vector. -/
theorem round_overflow (grow : Reserve) (endBitHint : ℕ) {s : Retry}
    (h : attempt s.out.room = .overflow) :
    round grow attempt endBitHint s = .ok (.inl (regrow grow s)) := by
  simp only [round, h]

/-- A round goes on exactly where its attempt overflows. -/
theorem retries_iff {s s' : Retry} : Retries grow attempt endBitHint s s' ↔
    attempt s.out.room = .overflow ∧ s' = regrow grow s := by
  unfold Retries round
  cases attempt s.out.room with
  | success newEndBit made => dsimp only; split <;> simp
  | overflow => simp [eq_comm]
  | failure msg => simp

/-- While the calls overflow, the loop goes through the retries. -/
theorem iterate_retries (endBitHint : ℕ) {k : ℕ}
    (hover : ∀ i < k, attempt (roomAt grow out i) = .overflow) (rounds : ℕ) :
    Loop.iterate .outOfFuel (round grow attempt endBitHint) (rounds + k) (start grow out) =
      Loop.iterate .outOfFuel (round grow attempt endBitHint) rounds (retries grow out k) := by
  induction k generalizing rounds with
  | zero => rfl
  | succ k ih =>
    have hprefix := ih (fun i hi => hover i (by omega)) (rounds + 1)
    have hround := round_overflow grow endBitHint
      (hover k (Nat.lt_succ_self k))
    rw [show rounds + (k + 1) = rounds + 1 + k by omega, hprefix]
    exact Loop.iterate_continue hround

/-- What the loop reaches are the retries, with overflows before them. -/
theorem exists_retry {s : Retry}
    (h : Relation.ReflTransGen (Retries grow attempt endBitHint) (start grow out) s) :
    ∃ k, s = retries grow out k ∧ ∀ i < k, attempt (roomAt grow out i) = .overflow := by
  induction h with
  | refl => exact ⟨0, rfl, by omega⟩
  | tail _ hnext ih =>
    obtain ⟨k, rfl, hover⟩ := ih
    obtain ⟨hlast, rfl⟩ := retries_iff.mp hnext
    refine ⟨k + 1, rfl, fun i hi => ?_⟩
    rcases Nat.lt_succ_iff_lt_or_eq.mp hi with hlt | rfl
    · exact hover i hlt
    · exact hlast

/-- The loop comes to a retry where all attempts before it overflow. -/
theorem reaches_retry {k : ℕ} (hover : ∀ i < k, attempt (roomAt grow out i) = .overflow) :
    Relation.ReflTransGen (Retries grow attempt endBitHint) (start grow out)
      (retries grow out k) := by
  induction k with
  | zero => exact .refl
  | succ k ih =>
    exact (ih fun i hi => hover i (by omega)).tail
      (retries_iff.mpr ⟨hover k (Nat.lt_succ_self k), rfl⟩)

/-- Without a call that succeeds the loop has no outcome. -/
theorem iterate_ne_ok (hnever : ∀ room newEndBit made, attempt room ≠ .success newEndBit made)
    (rounds : ℕ) (s : Retry) (r : Outcome × OutVec) :
    Loop.iterate .outOfFuel (round grow attempt endBitHint) rounds s ≠ .ok r := by
  induction rounds generalizing s with
  | zero => simp [Loop.iterate]
  | succ rounds ih =>
    cases hattempt : attempt s.out.room with
    | success newEndBit made => exact absurd hattempt (hnever _ _ _)
    | overflow =>
      rw [Loop.iterate_continue (round_overflow grow endBitHint hattempt)]
      exact ih _
    | failure msg =>
      have hround : round grow attempt endBitHint s = .error (.invalid msg) := by
        simp only [round, hattempt]
      simp [Loop.iterate_fail hround]

end Rounds

section Progress

variable {grow : Reserve} {attempt : ℕ → List UInt8 → ℕ → Attempt} {avail : ℕ → ℕ}
  {body : List UInt8} {startBit endBitHint size : ℕ} {out : OutVec}

/-- The call that succeeds decides the outcome, after retries that overflow. -/
theorem decodeMember_retry (grow : Reserve) (attempt : ℕ → List UInt8 → ℕ → Attempt)
    (endBitHint : ℕ) (out : OutVec) (hbyte : startBit / 8 < body.length) {k newEndBit : ℕ}
    {made : List UInt8}
    (hover : ∀ i < k, attempt (startBit / 8) (body.drop (startBit / 8)) (roomAt grow out i) =
      .overflow)
    (hsuccess : attempt (startBit / 8) (body.drop (startBit / 8)) (roomAt grow out k) =
      .success newEndBit made) {rounds : ℕ} (hrounds : k < rounds) :
    decodeMember grow attempt rounds body startBit endBitHint out =
      .ok (if endBitHint < newEndBit then (.straddle, (retries grow out k).out)
        else (.done newEndBit true, commit (retries grow out k).out made)) := by
  have hrun := iterate_retries endBitHint hover (rounds - k)
  have hround := round_success grow endBitHint (s := retries grow out k) hsuccess
  rw [show rounds - k + k = rounds - k - 1 + 1 + k by omega,
    show rounds - k - 1 + 1 + k = rounds by omega, show rounds - k = rounds - k - 1 + 1 by omega,
    Loop.iterate_break hround] at hrun
  simp only [decodeMember]
  rw [if_neg (Nat.not_le.mpr hbyte), hrun]

/-- The first retry with enough room is the one that succeeds. -/
theorem decodeMember_needs (endBitHint : ℕ)
    (hneeds : Needs (attempt (startBit / 8) (body.drop (startBit / 8))) avail size)
    (hbyte : startBit / 8 < body.length) {k : ℕ} (hroom : size ≤ avail (roomAt grow out k))
    {rounds : ℕ} (hrounds : k < rounds) :
    ∃ r, decodeMember grow attempt rounds body startBit endBitHint out = .ok r := by
  have hexists : ∃ k, size ≤ avail (roomAt grow out k) := ⟨k, hroom⟩
  have hfirst := Nat.find_spec hexists
  have hle := Nat.find_min' hexists hroom
  obtain ⟨newEndBit, made, hsuccess⟩ := hneeds.success _ hfirst
  exact ⟨_, decodeMember_retry grow attempt endBitHint out hbyte
    (fun i hi => hneeds.overflow _ (Nat.lt_of_not_le (Nat.find_min hexists hi))) hsuccess
    (by omega)⟩

/-- The retry loop makes progress exactly when the room it shows climbs to the member's
size. -/
theorem progresses_iff
    (hneeds : Needs (attempt (startBit / 8) (body.drop (startBit / 8))) avail size)
    (hbyte : startBit / 8 < body.length) :
    Progresses grow attempt avail body startBit endBitHint out ↔ Climbs grow avail out size := by
  constructor
  · rintro ⟨hgrows, rounds, r, hends⟩
    have hexists : ∃ k, size ≤ avail (roomAt grow out k) := by
      by_contra hnone
      have hrun := iterate_retries endBitHint (k := rounds)
        (fun i _ => hneeds.overflow _ (Nat.lt_of_not_le fun hle => hnone ⟨i, hle⟩)) 0
      rw [Nat.zero_add] at hrun
      rw [decodeMember, if_neg (Nat.not_le.mpr hbyte), hrun] at hends
      cases hends
    refine ⟨Nat.find hexists, Nat.find_spec hexists, fun i hi => ?_⟩
    have hover (j : ℕ) (hj : j < Nat.find hexists) :=
      hneeds.overflow _ (Nat.lt_of_not_le (Nat.find_min hexists hj))
    exact hgrows _ _ (reaches_retry fun j hj => hover j (by omega))
      (retries_iff.mpr ⟨hover i hi, rfl⟩)
  · rintro ⟨k, hroom, hclimbs⟩
    constructor
    · intro s s' hreach hnext
      obtain ⟨i, rfl, hover⟩ := exists_retry hreach
      obtain ⟨hlast, rfl⟩ := retries_iff.mp hnext
      apply hclimbs i
      -- a retry after the `k`-th one would have seen that one overflow
      apply Nat.lt_of_not_le
      intro hle
      obtain ⟨newEndBit, made, hsuccess⟩ := hneeds.success _ hroom
      rcases Nat.lt_or_eq_of_le hle with hlt | rfl
      · rw [hover k hlt] at hsuccess
        cases hsuccess
      · rw [roomAt, hlast] at hsuccess
        cases hsuccess
    · exact ⟨k + 1, decodeMember_needs endBitHint hneeds hbyte hroom (Nat.lt_succ_self k)⟩

/-- Without a call that succeeds the loop makes no progress. -/
theorem not_progresses (hnever : ∀ room newEndBit made,
    attempt (startBit / 8) (body.drop (startBit / 8)) room ≠ .success newEndBit made) :
    ¬Progresses grow attempt avail body startBit endBitHint out := by
  rintro ⟨-, rounds, r, hends⟩
  simp only [decodeMember] at hends
  split at hends
  · cases hends
  · exact iterate_ne_ok hnever rounds _ r hends

end Progress

end Backend

end RustyRapidgzip
