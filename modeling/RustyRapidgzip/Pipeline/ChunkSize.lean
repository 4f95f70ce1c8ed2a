import RustyRapidgzip.Deflate.PreloadRoom
import RustyRapidgzip.Pipeline.Serial

/-!
# The chunk size in machine words

The chunk size comes unchecked from the caller. The parallel decoder turns it into bits and
counts up in steps of it; the serial decoder adds the window to it. Both are computed in 64
bits, and sizes near the top of the range wrap around.
-/

namespace RustyRapidgzip

open PreloadRoom

namespace Pipeline

/-- The chunk size that is worked with, in bytes. -/
def chunkTarget (chunkSizeBytes : ℕ) : ℕ := max chunkSizeBytes (64 * 1024)

/-- A chunk has a byte. -/
theorem chunkTarget_pos (chunkSizeBytes : ℕ) : 0 < chunkTarget chunkSizeBytes := by
  unfold chunkTarget
  omega

/-! ## The search targets -/

/-- One round of `while c < total_bits`, with the targets so far and `c`. -/
def targetRound (chunkBits totalBits : ℕ) (s : List ℕ × ℕ) :
    Except DeflateError ((List ℕ × ℕ) ⊕ List ℕ) :=
  if s.2 < totalBits then .ok (.inl (s.1 ++ [s.2], (s.2 + chunkBits) % 2 ^ 64))
  else .ok (.inr s.1)

/-- The targets at which block boundaries are searched. The loop has no bound of its own, so
the rounds are a parameter. -/
def searchTargets (chunkSizeBytes : ℕ) (body : List UInt8) (rounds : ℕ) :
    Except DeflateError (List ℕ) :=
  let totalBits := body.length * 8 % 2 ^ 64
  let chunkBits := chunkTarget chunkSizeBytes * 8 % 2 ^ 64
  Loop.iterate .outOfFuel (targetRound chunkBits totalBits) rounds ([], chunkBits)

/-- The positive multiples of `step` below `bound`, in order. -/
def multiplesBelow (step bound : ℕ) : List ℕ :=
  (List.range ((bound - 1) / step)).map fun i => (i + 1) * step

/-- The multiples below a bound. -/
theorem mem_multiplesBelow {step bound t : ℕ} (hstep : 0 < step) :
    t ∈ multiplesBelow step bound ↔ 0 < t ∧ t < bound ∧ step ∣ t := by
  simp only [multiplesBelow, List.mem_map, List.mem_range]
  constructor
  · rintro ⟨i, hi, rfl⟩
    have hle : (i + 1) * step ≤ bound - 1 :=
      (Nat.mul_le_mul_right step hi).trans (Nat.div_mul_le_self _ _)
    have hpos : 0 < (i + 1) * step := Nat.mul_pos (Nat.succ_pos i) hstep
    exact ⟨hpos, by omega, Nat.dvd_mul_left _ _⟩
  · rintro ⟨hpos, hlt, k, rfl⟩
    obtain ⟨i, rfl⟩ : ∃ i, k = i + 1 := Nat.exists_eq_succ_of_ne_zero (by
      rintro rfl
      exact absurd hpos (Nat.lt_irrefl 0))
    have hle : (i + 1) * step ≤ bound - 1 := by
      rw [Nat.mul_comm]
      omega
    exact ⟨i, (Nat.le_div_iff_mul_le hstep).mpr hle, Nat.mul_comm _ _⟩

section Targets

variable {chunkSizeBytes : ℕ} {body : List UInt8}

/-- The position in bytes before round `i`: multiples of the chunk size in 61 bits. -/
def targetByte (chunkSizeBytes i : ℕ) : ℕ := (i + 1) * chunkTarget chunkSizeBytes % 2 ^ 61

/-- The first target is the chunk size, as a bit position. -/
theorem targetByte_zero : targetByte chunkSizeBytes 0 = chunkTarget chunkSizeBytes % 2 ^ 61 := by
  rw [targetByte, Nat.zero_add, Nat.one_mul]

/-- While the positions stay below the end, the loop collects them. -/
theorem searchTargets_collect {k : ℕ}
    (hbelow : ∀ i < k, targetByte chunkSizeBytes i < body.length % 2 ^ 61) (rounds : ℕ) :
    searchTargets chunkSizeBytes body (rounds + k) =
      Loop.iterate .outOfFuel
        (targetRound (chunkTarget chunkSizeBytes * 8 % 2 ^ 64) (body.length * 8 % 2 ^ 64)) rounds
        ((List.range k).map fun i => targetByte chunkSizeBytes i * 8,
          targetByte chunkSizeBytes k * 8) := by
  induction k generalizing rounds with
  | zero =>
    simp only [searchTargets, targetByte_zero, List.range_zero, List.map_nil, Nat.add_zero]
    congr 2
    omega
  | succ k ih =>
    have hprefix := ih (fun i hi => hbelow i (by omega)) (rounds + 1)
    rw [show rounds + (k + 1) = rounds + 1 + k by omega, hprefix]
    have hlast := hbelow k (Nat.lt_succ_self k)
    apply Loop.iterate_continue
    unfold targetRound
    rw [if_pos (by simp only; omega), List.range_succ, List.map_append]
    have hnext : (k + 1 + 1) * chunkTarget chunkSizeBytes =
        (k + 1) * chunkTarget chunkSizeBytes + chunkTarget chunkSizeBytes := Nat.succ_mul _ _
    simp only [List.map_cons, List.map_nil, targetByte, hnext, Except.ok.injEq, Sum.inl.injEq,
      Prod.mk.injEq, true_and]
    omega

/-- The loop ends at the first position that is not below the end. -/
theorem searchTargets_stop {k : ℕ}
    (hbelow : ∀ i < k, targetByte chunkSizeBytes i < body.length % 2 ^ 61)
    (hstop : body.length % 2 ^ 61 ≤ targetByte chunkSizeBytes k) {rounds : ℕ}
    (hrounds : k < rounds) :
    searchTargets chunkSizeBytes body rounds =
      .ok ((List.range k).map fun i => targetByte chunkSizeBytes i * 8) := by
  have hcollect := searchTargets_collect hbelow (rounds - k - 1 + 1)
  rw [show rounds - k - 1 + 1 + k = rounds by omega] at hcollect
  rw [hcollect]
  apply Loop.iterate_break
  unfold targetRound
  rw [if_neg (by simp only; omega)]

/-- Positions that never reach the end keep the loop going. -/
theorem searchTargets_endless
    (hbelow : ∀ i, targetByte chunkSizeBytes i < body.length % 2 ^ 61) (rounds : ℕ) :
    searchTargets chunkSizeBytes body rounds = .error .outOfFuel := by
  have hcollect := searchTargets_collect (k := rounds) (fun i _ => hbelow i) 0
  rwa [Nat.zero_add] at hcollect

/-- The targets are those of the loop without wrap-around. -/
def TargetsExact (chunkSizeBytes : ℕ) (body : List UInt8) : Prop :=
  ∃ rounds, searchTargets chunkSizeBytes body rounds =
    .ok (multiplesBelow (8 * chunkTarget chunkSizeBytes) (8 * body.length))

/-- What the loop needs: no target, and the first position past the end in 61 bits; or targets,
and no overflow up to the first multiple of the chunk size past the body. -/
def TargetsFit (chunkSizeBytes : ℕ) (body : List UInt8) : Prop :=
  (body.length ≤ chunkTarget chunkSizeBytes ∧
    body.length % 2 ^ 61 ≤ chunkTarget chunkSizeBytes % 2 ^ 61) ∨
  (chunkTarget chunkSizeBytes < body.length ∧ body.length < 2 ^ 61 ∧
    ((body.length - 1) / chunkTarget chunkSizeBytes + 1) * chunkTarget chunkSizeBytes < 2 ^ 61)

/-- Whether the targets fit can be decided. -/
instance (chunkSizeBytes : ℕ) (body : List UInt8) : Decidable (TargetsFit chunkSizeBytes body) :=
  inferInstanceAs (Decidable (_ ∨ _))

/-- The multiples of a bit position, by their bytes. -/
theorem multiplesBelow_eight (step bound : ℕ) : multiplesBelow (8 * step) (8 * bound) =
    (List.range ((bound - 1) / step)).map fun i => (i + 1) * step * 8 := by
  have hcount : (8 * bound - 1) / (8 * step) = (bound - 1) / step := by
    rw [← Nat.div_div_eq_div_mul]
    congr 1
    omega
  rw [multiplesBelow, hcount]
  apply List.map_congr_left
  intro i _
  ring

/-- The loop that ends with the right targets had nothing to wrap. -/
theorem targetsFit_of_exact (h : TargetsExact chunkSizeBytes body) :
    TargetsFit chunkSizeBytes body := by
  obtain ⟨rounds, hok⟩ := h
  rw [multiplesBelow_eight] at hok
  have hexists : ∃ k, body.length % 2 ^ 61 ≤ targetByte chunkSizeBytes k := by
    by_contra hnone
    rw [searchTargets_endless (fun i => Nat.lt_of_not_le fun hle => hnone ⟨i, hle⟩)] at hok
    cases hok
  have hstop := Nat.find_spec hexists
  have hbelow (i : ℕ) (hi : i < Nat.find hexists) := Nat.lt_of_not_le (Nat.find_min hexists hi)
  generalize Nat.find hexists = k at hstop hbelow
  have hrounds : k < rounds := by
    by_contra hle
    have hcollect := searchTargets_collect (k := rounds) (fun i hi => hbelow i (by omega)) 0
    rw [Nat.zero_add] at hcollect
    rw [hcollect] at hok
    cases hok
  rw [searchTargets_stop hbelow hstop hrounds, Except.ok.injEq] at hok
  have hk : k = (body.length - 1) / chunkTarget chunkSizeBytes := by
    simpa using congrArg List.length hok
  have hexact (i : ℕ) (hi : i < k) :
      targetByte chunkSizeBytes i = (i + 1) * chunkTarget chunkSizeBytes := by
    have hget := congrArg (fun l => l[i]?) hok
    simp only [← hk, List.getElem?_map, List.getElem?_range hi, Option.map_some,
      Option.some.injEq] at hget
    omega
  have hpos := chunkTarget_pos chunkSizeBytes
  rcases Nat.lt_or_ge (chunkTarget chunkSizeBytes) body.length with hlt | hge
  · right
    have hk1 : 1 ≤ k := by
      rw [hk]
      exact (Nat.le_div_iff_mul_le hpos).mpr (by omega)
    -- the last target is the last multiple below the end
    have hlast := hexact (k - 1) (by omega)
    have hlt_last := hbelow (k - 1) (by omega)
    rw [show k - 1 + 1 = k by omega] at hlast
    have hfirst := hexact 0 (by omega)
    rw [targetByte_zero, Nat.zero_add, Nat.one_mul] at hfirst
    have hdiv := Nat.div_add_mod (body.length - 1) (chunkTarget chunkSizeBytes)
    have hmod := Nat.mod_lt (body.length - 1) hpos
    rw [← hk, Nat.mul_comm] at hdiv
    have hnext : (k + 1) * chunkTarget chunkSizeBytes =
        k * chunkTarget chunkSizeBytes + chunkTarget chunkSizeBytes := Nat.succ_mul _ _
    rw [targetByte, hnext] at hstop
    rw [← hk, hnext]
    refine ⟨hlt, ?_, ?_⟩ <;> omega
  · left
    have hk0 : k = 0 := by
      rw [hk]
      exact Nat.div_eq_of_lt (by omega)
    rw [hk0, targetByte_zero] at hstop
    exact ⟨hge, hstop⟩

/-- Without wrap-around the loop ends with the right targets. -/
theorem targetsExact_of_fit (h : TargetsFit chunkSizeBytes body) :
    TargetsExact chunkSizeBytes body := by
  have hpos := chunkTarget_pos chunkSizeBytes
  unfold TargetsExact
  rw [multiplesBelow_eight]
  rcases h with ⟨hle, hstop⟩ | ⟨hlt, hlen, hfit⟩
  · refine ⟨1, ?_⟩
    rw [Nat.div_eq_of_lt (by omega)]
    exact searchTargets_stop (k := 0) (by omega) (by rwa [targetByte_zero]) Nat.one_pos
  · generalize hk : (body.length - 1) / chunkTarget chunkSizeBytes = k at hfit ⊢
    have hdiv := Nat.div_add_mod (body.length - 1) (chunkTarget chunkSizeBytes)
    have hmod := Nat.mod_lt (body.length - 1) hpos
    rw [hk, Nat.mul_comm] at hdiv
    have hnext : (k + 1) * chunkTarget chunkSizeBytes =
        k * chunkTarget chunkSizeBytes + chunkTarget chunkSizeBytes := Nat.succ_mul _ _
    have hbyte (i : ℕ) (hi : i ≤ k) :
        targetByte chunkSizeBytes i = (i + 1) * chunkTarget chunkSizeBytes :=
      Nat.mod_eq_of_lt (Nat.lt_of_le_of_lt
        (Nat.mul_le_mul_right _ (Nat.succ_le_succ hi)) hfit)
    have hbelow (i : ℕ) (hi : i < k) : targetByte chunkSizeBytes i < body.length % 2 ^ 61 := by
      have hmul : (i + 1) * chunkTarget chunkSizeBytes ≤ k * chunkTarget chunkSizeBytes :=
        Nat.mul_le_mul_right _ hi
      rw [hbyte i hi.le]
      omega
    have hstop : body.length % 2 ^ 61 ≤ targetByte chunkSizeBytes k := by
      rw [hbyte k le_rfl, hnext]
      omega
    refine ⟨k + 1, ?_⟩
    rw [searchTargets_stop hbelow hstop (Nat.lt_succ_self k)]
    congr 1
    apply List.map_congr_left
    intro i hi
    rw [hbyte i (List.mem_range.mp hi).le]

end Targets

/-! ## The emission threshold -/

/-- What can stop the emission loop: an index out of range, or no more rounds. -/
inductive EmitError where
  | sliceIndex
  | outOfRounds
  deriving DecidableEq, Repr

/-- The threshold of emission. -/
def emitThreshold (chunkSizeBytes : ℕ) : ℕ := (chunkTarget chunkSizeBytes + SERIAL_WINDOW) % 2 ^ 64

/-- One round of the emission loop in machine words. -/
def emitRound (chunkSizeBytes : ℕ) (s : SerialState) :
    Except EmitError (SerialState ⊕ SerialState) :=
  if emitThreshold chunkSizeBytes ≤ s.out.length then
    let emitLen := subUsize s.out.length SERIAL_WINDOW
    if s.out.length < emitLen then .error .sliceIndex
    else .ok (.inl (handOff (s.out.take emitLen) (s.out.drop emitLen) s))
  else .ok (.inr s)

/-- The threshold is the sum, so that an output that reaches it holds a window. -/
structure ThresholdExact (chunkSizeBytes : ℕ) : Prop where
  sum : emitThreshold chunkSizeBytes = chunkTarget chunkSizeBytes + SERIAL_WINDOW
  no_underflow : ∀ s : SerialState, emitThreshold chunkSizeBytes ≤ s.out.length →
    subUsize s.out.length SERIAL_WINDOW + SERIAL_WINDOW = s.out.length

/-- The threshold is exact where its sum has 64 bits. -/
theorem thresholdExact_iff {chunkSizeBytes : ℕ} :
    ThresholdExact chunkSizeBytes ↔ chunkTarget chunkSizeBytes + SERIAL_WINDOW < 2 ^ 64 := by
  constructor
  · rintro ⟨hsum, -⟩
    unfold emitThreshold at hsum
    omega
  · intro hfit
    have hsum : emitThreshold chunkSizeBytes = chunkTarget chunkSizeBytes + SERIAL_WINDOW :=
      Nat.mod_eq_of_lt hfit
    refine ⟨hsum, fun s hs => ?_⟩
    rw [subUsize, if_pos (by omega)]
    omega

/-- Without wrap-around the emission loop is the one of the serial decoder. -/
theorem iterate_emitRound {chunkSizeBytes : ℕ} (h : ThresholdExact chunkSizeBytes) (rounds : ℕ)
    {s : SerialState} (hrounds : s.out.length ≤ rounds) :
    Loop.iterate .outOfRounds (emitRound chunkSizeBytes) (rounds + 1) s =
      .ok (emitChunks (chunkTarget chunkSizeBytes) rounds s) := by
  have hpos := chunkTarget_pos chunkSizeBytes
  induction rounds generalizing s with
  | zero =>
    apply Loop.iterate_break
    rw [emitRound, if_neg (by rw [h.sum]; omega)]
    rfl
  | succ rounds ih =>
    by_cases hemit : emitThreshold chunkSizeBytes ≤ s.out.length
    · have hwindow := h.no_underflow s hemit
      have hround : emitRound chunkSizeBytes s = .ok (.inl
          (handOff (s.out.take (s.out.length - SERIAL_WINDOW))
            (s.out.drop (s.out.length - SERIAL_WINDOW)) s)) := by
        unfold emitRound
        simp only [show subUsize s.out.length SERIAL_WINDOW = s.out.length - SERIAL_WINDOW by omega]
        rw [if_pos hemit, if_neg (by omega)]
      rw [h.sum] at hemit
      rw [Loop.iterate_continue hround, emitChunks, if_pos hemit]
      apply ih
      simp only [handOff, List.length_drop]
      omega
    · have hround : emitRound chunkSizeBytes s = .ok (.inr s) := by
        rw [emitRound, if_neg hemit]
      rw [h.sum] at hemit
      rw [Loop.iterate_break hround, emitChunks, if_neg hemit]

/-- The chunk sizes that both decoders can work with on a body. -/
structure ChunkSizeFits (chunkSizeBytes : ℕ) (body : List UInt8) : Prop where
  /-- The serial decoder reserves its threshold and 64 KiB, and a vector has less than 2^63
  bytes. -/
  reserves : chunkTarget chunkSizeBytes + SERIAL_WINDOW + 64 * 1024 < 2 ^ 63
  /-- The loop over the search targets ends. -/
  ends : ∃ i, body.length % 2 ^ 61 ≤ targetByte chunkSizeBytes i

/-- For such a size the serial decoder emits at the sum. -/
theorem ChunkSizeFits.thresholdExact {chunkSizeBytes : ℕ} {body : List UInt8}
    (h : ChunkSizeFits chunkSizeBytes body) : ThresholdExact chunkSizeBytes :=
  thresholdExact_iff.mpr (by have := h.reserves; omega)

/-- For such a size the search targets are found. -/
theorem ChunkSizeFits.exists_searchTargets {chunkSizeBytes : ℕ} {body : List UInt8}
    (h : ChunkSizeFits chunkSizeBytes body) :
    ∃ rounds targets, searchTargets chunkSizeBytes body rounds = .ok targets := by
  have hstop := Nat.find_spec h.ends
  have hbelow (i : ℕ) (hi : i < Nat.find h.ends) := Nat.lt_of_not_le (Nat.find_min h.ends hi)
  exact ⟨_, _, searchTargets_stop hbelow hstop (Nat.lt_succ_self _)⟩

/-- The default and every chunk size up to 2^60 fit the bodies of less than 2^60 bytes. -/
theorem chunkSizeFits_of_le {chunkSizeBytes : ℕ} {body : List UInt8}
    (hsize : chunkSizeBytes ≤ 2 ^ 60) (hlen : body.length < 2 ^ 60) :
    ChunkSizeFits chunkSizeBytes body := by
  have hpos := chunkTarget_pos chunkSizeBytes
  have htarget : chunkTarget chunkSizeBytes ≤ 2 ^ 60 := by
    unfold chunkTarget
    omega
  have hwindow : SERIAL_WINDOW = 32768 := rfl
  refine ⟨by omega, (body.length - 1) / chunkTarget chunkSizeBytes, ?_⟩
  have hdiv := Nat.div_add_mod (body.length - 1) (chunkTarget chunkSizeBytes)
  have hmod := Nat.mod_lt (body.length - 1) hpos
  rw [Nat.mul_comm] at hdiv
  rw [targetByte, Nat.succ_mul]
  omega

/-- For which chunk sizes the arithmetic of both decoders is exact. -/
theorem chunkSize_exact_iff (chunkSizeBytes : ℕ) (body : List UInt8) :
    (TargetsExact chunkSizeBytes body ↔ TargetsFit chunkSizeBytes body) ∧
      (ThresholdExact chunkSizeBytes ↔ chunkTarget chunkSizeBytes + SERIAL_WINDOW < 2 ^ 64) :=
  ⟨⟨targetsFit_of_exact, targetsExact_of_fit⟩, thresholdExact_iff⟩

/-- A chunk size of 2^61 bytes is no bits at all, and the target loop does not end on any body
with a byte. With `usize::MAX` the threshold is one byte less than the window. -/
theorem chunkSize_not_exact :
    (∀ rounds, searchTargets (2 ^ 61) [0] rounds = .error .outOfFuel) ∧
      ¬TargetsExact (2 ^ 61) [0] ∧ emitThreshold (2 ^ 64 - 1) = 32767 ∧
      ¬ThresholdExact (2 ^ 64 - 1) := by
  have hendless (rounds : ℕ) : searchTargets (2 ^ 61) [0] rounds = .error .outOfFuel := by
    apply searchTargets_endless
    intro i
    have hzero : targetByte (2 ^ 61) i = 0 := by
      rw [targetByte, show chunkTarget (2 ^ 61) = 2 ^ 61 by decide]
      exact Nat.mul_mod_left _ _
    rw [hzero]
    decide
  refine ⟨hendless, ?_, by decide, ?_⟩
  · rintro ⟨rounds, hok⟩
    rw [hendless] at hok
    cases hok
  · rintro ⟨hsum, -⟩
    revert hsum
    decide

end Pipeline

end RustyRapidgzip
