import RustyRapidgzip.Lib.Memory
import RustyRapidgzip.Deflate.Window16

/-!
# The copy kernels in memory

Each decoder has its own way to copy a back-reference, in three regimes: by chunks while the source
ends before the cursor, by broadcast at distance one, else element by element. In memory they all
leave what one element after the other leaves, up to the end of the copy. What the chunked ones
write beyond it lies beyond it.
-/

namespace RustyRapidgzip

open Memory

/-- The eight bytes of a word, the least significant first. -/
def wordByte (v k : ℕ) : UInt8 := UInt8.ofNat (v >>> (8 * k))

/-- Store an eight-byte word. -/
def writeU64 (m : ℕ → UInt8) (pos v : ℕ) : ℕ → UInt8 := fun i =>
  if pos ≤ i ∧ i < pos + 8 then wordByte v (i - pos) else m i

/-- A byte in every byte of a word. -/
def broadcastU64 (b : UInt8) : ℕ := b.toNat * 0x0101010101010101 % 2 ^ 64

/-- `while n >= 8`, store the word. The result is the memory, the position and the rest. -/
def storeWords (v : ℕ) : ℕ → (ℕ → UInt8) → ℕ → ℕ → (ℕ → UInt8) × ℕ × ℕ
  | 0, m, d, n => (m, d, n)
  | rounds + 1, m, d, n =>
    if 8 ≤ n then storeWords v rounds (writeU64 m d v) (d + 8) (n - 8) else (m, d, n)

/-- `while n > 0`, store the byte. -/
def storeBytes (b : UInt8) : ℕ → (ℕ → UInt8) → ℕ → ℕ → UInt8
  | 0, m, _ => m
  | n + 1, m, d => storeBytes b n (set m d b) (d + 1)

/-- Broadcast the byte at `src` over `length` bytes, by words and then by bytes. -/
def broadcast (m : ℕ → UInt8) (src dst length : ℕ) : ℕ → UInt8 :=
  let b := m src
  let (m, d, n) := storeWords (broadcastU64 b) length m dst length
  storeBytes b n m d

namespace FastCopy

/-- `while s < end`, copy chunks of `N` bytes. -/
def copyChunksWhile (N : ℕ) : ℕ → (ℕ → UInt8) → ℕ → ℕ → ℕ → ℕ → UInt8
  | 0, m, _, _, _ => m
  | rounds + 1, m, s, d, stop =>
    if s < stop then copyChunksWhile N rounds (move m s d N) (s + N) (d + N) stop else m

/-- Copy in chunks of `N` bytes, the first one unconditionally. -/
def copyChunkedUnchecked (N : ℕ) (m : ℕ → UInt8) (src dst length : ℕ) : ℕ → UInt8 :=
  copyChunksWhile N length (move m src dst N) (src + N) (dst + N) (src + length)

/-- The copy of the fast decoders, with chunks of `COPY_N` bytes. -/
def copyBackRaw (COPY_N : ℕ) (m : ℕ → UInt8) (cur distance length : ℕ) : ℕ → UInt8 :=
  let src := cur - distance
  if length ≤ distance then copyChunkedUnchecked COPY_N m src cur length
  else if distance = 1 then broadcast m src cur length
  else copy length m src cur

end FastCopy

/-- A vector of bytes: the memory behind its pointer, and its length. -/
structure ByteVec where
  mem : ℕ → UInt8
  len : ℕ

namespace ByteVec

/-- Append a byte. -/
def push (v : ByteVec) (b : UInt8) : ByteVec := ⟨set v.mem v.len b, v.len + 1⟩

/-- `while n >= 8`, copy eight bytes. The result is the memory and the rest. -/
def copyWords : ℕ → (ℕ → UInt8) → ℕ → ℕ → ℕ → (ℕ → UInt8) × ℕ
  | 0, m, _, _, n => (m, n)
  | rounds + 1, m, sp, dp, n =>
    if 8 ≤ n then copyWords rounds (move m sp dp 8) (sp + 8) (dp + 8) (n - 8) else (m, n)

/-- Copy bytes that do not overlap: words and a last word that overlaps them, or single bytes. -/
def copySlice (m : ℕ → UInt8) (start cur length : ℕ) : ℕ → UInt8 :=
  if 8 ≤ length then
    let (m, n) := copyWords length m start cur length
    if 0 < n then move m (start + length - 8) (cur + length - 8) 8 else m
  else copy length m start cur

/-- Push `n` bytes, reading each from `start` on. -/
def pushFrom : ℕ → ℕ → ByteVec → ByteVec
  | _, 0, out => out
  | start, n + 1, out => pushFrom (start + 1) n (out.push (out.mem start))

/-- The copy of the plain decoder. Its vector has reserved the length. -/
def copyBack (out : ByteVec) (distance length : ℕ) : ByteVec :=
  let cur := out.len
  let start := cur - distance
  if length ≤ distance then ⟨copySlice out.mem start cur length, cur + length⟩
  else if distance = 1 then ⟨broadcast out.mem start cur length, cur + length⟩
  else pushFrom start length out

end ByteVec

/-! ## Broadcasts -/

/-- Every byte of a broadcast word is the byte. -/
theorem wordByte_broadcastU64 (b : UInt8) {k : ℕ} (hk : k < 8) :
    wordByte (broadcastU64 b) k = b := by
  have hall : ∀ n < 256, ∀ k < 8,
      (n * 0x0101010101010101 % 2 ^ 64) >>> (8 * k) % 2 ^ 8 = n := by decide +kernel
  apply UInt8.toNat_inj.mp
  rw [wordByte, broadcastU64, UInt8.toNat_ofNat']
  exact hall b.toNat (UInt8.toNat_lt b) k hk

/-- A word of equal bytes fills eight cells. -/
theorem writeU64_filled (m : ℕ → UInt8) (b : UInt8) (pos : ℕ) :
    Filled m (writeU64 m pos (broadcastU64 b)) b pos 8 where
  outside i hi := by rw [writeU64, if_neg (by omega)]
  filled j hj := by
    rw [writeU64, if_pos (by omega), Nat.add_sub_cancel_left]
    exact wordByte_broadcastU64 b hj

/-- The word loop fills all but a rest, which is where it stops. -/
theorem storeWords_filled (b : UInt8) (rounds : ℕ) (m : ℕ → UInt8) (d n : ℕ) :
    ∃ m' k, storeWords (broadcastU64 b) rounds m d n = (m', d + k, n - k) ∧ k ≤ n ∧
      Filled m m' b d k := by
  induction rounds generalizing m d n with
  | zero => exact ⟨m, 0, rfl, Nat.zero_le _, Filled.none m b d⟩
  | succ rounds ih =>
    unfold storeWords
    split
    · next hn =>
      obtain ⟨m', k, heq, hk, hfill⟩ := ih (writeU64 m d (broadcastU64 b)) (d + 8) (n - 8)
      refine ⟨m', 8 + k, ?_, by omega, (writeU64_filled m b d).append hfill⟩
      rw [heq, Nat.add_assoc, Nat.sub_sub]
    · exact ⟨m, 0, rfl, Nat.zero_le _, Filled.none m b d⟩

/-- Equal bytes fill their cells. -/
theorem storeBytes_filled (b : UInt8) (n : ℕ) (m : ℕ → UInt8) (d : ℕ) :
    Filled m (storeBytes b n m d) b d n := by
  induction n generalizing m d with
  | zero => exact Filled.none m b d
  | succ n ih =>
    have happ := (Filled.one m b d).append (ih (set m d b) (d + 1))
    rwa [Nat.add_comm 1 n] at happ

/-- A broadcast fills its length. -/
theorem broadcast_filled (m : ℕ → UInt8) (src dst length : ℕ) :
    Filled m (broadcast m src dst length) (m src) dst length := by
  obtain ⟨m', k, heq, hk, hfill⟩ := storeWords_filled (m src) length m dst length
  have hrest := hfill.append (storeBytes_filled (m src) (length - k) m' (dst + k))
  rw [Nat.add_sub_cancel' hk] at hrest
  rw [broadcast, heq]
  exact hrest

/-! ## Chunks -/

namespace FastCopy

/-- The loop over the chunks copies what is left and less than a chunk more. -/
theorem copyChunksWhile_copied {N : ℕ} (hN : 0 < N) (rounds : ℕ) (m : ℕ → UInt8) {s d left : ℕ}
    (hrounds : left ≤ rounds) (hsrc : s + left ≤ d) :
    Copied m (copyChunksWhile N rounds m s d (s + left)) s d left (left + (N - 1)) := by
  induction rounds generalizing m s d left with
  | zero =>
    obtain rfl : left = 0 := by omega
    exact (Copied.none m s d).weaken le_rfl (Nat.zero_le _)
  | succ rounds ih =>
    unfold copyChunksWhile
    split
    · by_cases hlast : left ≤ N
      · have hstop : copyChunksWhile N rounds (move m s d N) (s + N) (d + N) (s + left) =
            move m s d N := by
          cases rounds with
          | zero => rfl
          | succ rounds => rw [copyChunksWhile, if_neg (by omega)]
        rw [hstop]
        exact (Copied.chunk m s d N).weaken hlast (by omega)
      · have hrest := @ih (move m s d N) (s + N) (d + N) (left - N) (by omega) (by omega)
        rw [show s + N + (left - N) = s + left by omega] at hrest
        have happ := (Copied.chunk m s d N).append hrest (by omega)
        exact happ.weaken (by omega) (by omega)
    · obtain rfl : left = 0 := by omega
      exact (Copied.none m s d).weaken le_rfl (Nat.zero_le _)

/-- Chunks behind their source copy it, and less than a chunk more. -/
theorem copyChunkedUnchecked_copied {N : ℕ} (hN : 0 < N) (m : ℕ → UInt8) {src dst length : ℕ}
    (hlength : 0 < length) (hsrc : src + length ≤ dst) :
    Copied m (copyChunkedUnchecked N m src dst length) src dst length (length + (N - 1)) := by
  have hfirst : copyChunkedUnchecked N m src dst length =
      copyChunksWhile N (length + 1) m src dst (src + length) := by
    rw [copyChunksWhile, if_pos (by omega), copyChunkedUnchecked]
  rw [hfirst]
  exact copyChunksWhile_copied hN (length + 1) m (Nat.le_succ length) hsrc

variable {cur distance length : ℕ}

/-- The copy of the fast decoders is the copy byte by byte up to its end. -/
theorem copyBackRaw_eq_copy {N : ℕ} (hN : 0 < N) (m : ℕ → UInt8) (hd : 0 < distance)
    (hle : distance ≤ cur) (hlength : 0 < length) :
    (∀ i < cur + length, copyBackRaw N m cur distance length i =
      copy length m (cur - distance) cur i) ∧
    ∀ i, cur + length + (N - 1) ≤ i → copyBackRaw N m cur distance length i = m i := by
  unfold copyBackRaw
  by_cases hslice : length ≤ distance
  · have hcopied := copyChunkedUnchecked_copied hN m hlength
      (show cur - distance + length ≤ cur by omega)
    simp only [if_pos hslice]
    exact ⟨fun i hi => hcopied.eq_copy (by omega) (by omega) hi,
      fun i hi => hcopied.above i (by omega)⟩
  by_cases hone : distance = 1
  · subst hone
    have hfill := broadcast_filled m (cur - 1) cur length
    simp only [if_neg hslice, if_true]
    refine ⟨fun i hi => ?_, fun i hi => hfill.outside i (Or.inr (by omega))⟩
    obtain ⟨src, rfl⟩ : ∃ src, cur = src + 1 := ⟨cur - 1, by omega⟩
    exact hfill.eq_copy hi
  · simp only [if_neg hslice, if_neg hone]
    exact ⟨fun _ _ => trivial, fun i hi => copy_of_outside _ _ (Or.inr (by omega))⟩

/-- On a memory that holds the output, the copy is the copy of the output. -/
theorem copyBackRaw_holds {N : ℕ} (hN : 0 < N) {m : ℕ → UInt8} {out : List UInt8} (h : Holds m out)
    (hd : 0 < distance) (hle : distance ≤ out.length) (hlength : 0 < length) :
    Holds (copyBackRaw N m out.length distance length) (Lz.copyBack out distance length) := by
  refine (h.copy length hd hle).of_eq fun i hi => ?_
  rw [Lz.copyBack_length hd hle] at hi
  exact (copyBackRaw_eq_copy hN m hd hle hlength).1 i hi

end FastCopy

/-! ## Cells -/

/-- One element after the other, in the window of cells. -/
theorem copyCells_eq_copy (n : ℕ) (scratch : ℕ → ℕ) (src dst : ℕ) :
    copyCells n scratch src dst = copy n scratch src dst := by
  induction n generalizing scratch src dst with
  | zero => rfl
  | succ n ih =>
    rw [copyCells, copy, ih]
    rfl

/-- The loop over chunks of eight cells writes less than a chunk past its end. -/
theorem copyChunks_above (rounds : ℕ) (scratch : ℕ → ℕ) {src dst left : ℕ} (hleft : 0 < left)
    {i : ℕ} (hi : dst + left + 7 ≤ i) :
    copyChunks rounds scratch src dst (src + left) i = scratch i := by
  induction rounds generalizing scratch src dst left with
  | zero => rfl
  | succ rounds ih =>
    have hmoved : moveCells scratch src dst 8 i = scratch i := by
      rw [moveCells, if_neg (by omega)]
    simp only [copyChunks]
    by_cases hlast : src + left ≤ src + 8
    · rw [if_pos hlast, hmoved]
    · rw [if_neg hlast, show src + left = src + 8 + (left - 8) by omega, ih _ (by omega) (by omega),
        hmoved]

/-- Filling leaves what lies above. -/
theorem fillCells_above (v n : ℕ) (scratch : ℕ → ℕ) {dst i : ℕ} (hi : dst + n ≤ i) :
    fillCells v n scratch dst i = scratch i := by
  induction n generalizing scratch dst with
  | zero => rfl
  | succ n ih =>
    rw [fillCells, ih _ (by omega), setCell, if_neg (by omega)]

/-- The copy of cells is the copy cell by cell up to its end. -/
theorem copyBackU16_eq_copy (scratch : ℕ → ℕ) {cur distance length : ℕ} (hd : 0 < distance)
    (hle : distance ≤ cur) (hlength : 0 < length) :
    (∀ i < cur + length, copyBackU16 scratch cur distance length i =
      copy length scratch (cur - distance) cur i) ∧
    ∀ i, cur + length + 7 ≤ i → copyBackU16 scratch cur distance length i = scratch i := by
  obtain ⟨hbelow, hperiod⟩ := copyBackU16_spec scratch hd hle hlength
  constructor
  · intro i hi
    refine eq_copy (by omega) hbelow (fun j hj => ?_) hi
    rw [hperiod j hj]
    congr 1
    omega
  · intro i hi
    unfold copyBackU16
    by_cases hslice : length ≤ distance
    · simp only [if_pos hslice]
      exact copyChunks_above length scratch hlength hi
    by_cases hone : distance = 1
    · simp only [if_neg hslice, if_pos hone]
      exact fillCells_above _ _ _ (by omega)
    · simp only [if_neg hslice, if_neg hone]
      rw [copyCells_eq_copy, copy_of_outside _ _ (Or.inr (by omega))]

/-! ## Vectors -/

namespace ByteVec

/-- The word loop copies all but a rest of less than a word, and writes nothing else. -/
theorem copyWords_copied (rounds : ℕ) (m : ℕ → UInt8) {sp dp n : ℕ} (hrounds : n ≤ rounds)
    (hsrc : sp + n ≤ dp) :
    ∃ m' k, copyWords rounds m sp dp n = (m', n - k) ∧ k ≤ n ∧ n < k + 8 ∧
      Copied m m' sp dp k k := by
  induction rounds generalizing m sp dp n with
  | zero => exact ⟨m, 0, rfl, Nat.zero_le _, by omega, Copied.none m sp dp⟩
  | succ rounds ih =>
    unfold copyWords
    split
    · next hn =>
      obtain ⟨m', k, heq, hk, hrest, hcopied⟩ := @ih (move m sp dp 8) (sp + 8) (dp + 8) (n - 8)
        (by omega) (by omega)
      refine ⟨m', 8 + k, ?_, by omega, by omega,
        (Copied.chunk m sp dp 8).append hcopied (by omega)⟩
      rw [heq, Nat.sub_sub]
    · exact ⟨m, 0, rfl, Nat.zero_le _, by omega, Copied.none m sp dp⟩

/-- The last word rewrites bytes that the word loop has copied, with the same values. -/
theorem Copied.tailWord {m m' : ℕ → UInt8} {start cur k length : ℕ}
    (h : Copied m m' start cur k k) (hk : k ≤ length) (hlength : 8 ≤ length)
    (hrest : length < k + 8) (hsrc : start + length ≤ cur) :
    Copied m (move m' (start + length - 8) (cur + length - 8) 8) start cur length length where
  below i hi := by rw [move, if_neg (by omega), h.below i hi]
  copied j hj := by
    by_cases htail : length - 8 ≤ j
    · rw [move, if_pos (by omega), h.below _ (by omega)]
      congr 1
      omega
    · rw [move, if_neg (by omega), h.copied j (by omega)]
  above i hi := by rw [move, if_neg (by omega), h.above i (by omega)]

/-- The copy of single bytes from below the cursor. -/
theorem copied_copy (n : ℕ) (m : ℕ → UInt8) {start cur : ℕ} (hlt : start < cur)
    (hsrc : start + n ≤ cur) : Copied m (copy n m start cur) start cur n n where
  below i hi := copy_of_outside _ _ (Or.inl hi)
  copied j hj := by rw [copy_add m hlt hj, copy_of_outside _ _ (Or.inl (by omega))]
  above i hi := copy_of_outside _ _ (Or.inr hi)

/-- A slice before the cursor is copied. -/
theorem copySlice_copied (m : ℕ → UInt8) {start cur length : ℕ} (hlt : start < cur)
    (hsrc : start + length ≤ cur) :
    Copied m (copySlice m start cur length) start cur length length := by
  unfold copySlice
  split
  · next hlength =>
    obtain ⟨m', k, heq, hk, hrest, hcopied⟩ := copyWords_copied length m le_rfl hsrc
    rw [heq]
    dsimp only
    split
    · exact Copied.tailWord hcopied hk hlength hrest hsrc
    · obtain rfl : k = length := by omega
      exact hcopied
  · exact copied_copy length m hlt hsrc

/-- Pushing bytes that are read on the way is the copy element by element. -/
theorem pushFrom_eq (n start : ℕ) (out : ByteVec) :
    pushFrom start n out = ⟨copy n out.mem start out.len, out.len + n⟩ := by
  induction n generalizing start out with
  | zero => rfl
  | succ n ih =>
    rw [pushFrom, ih, push, copy]
    simp only [mk.injEq, true_and]
    omega

/-- The copy of the plain decoder is the copy byte by byte, and writes nothing past its end. -/
theorem copyBack_eq_copy (out : ByteVec) {distance length : ℕ} (hd : 0 < distance)
    (hle : distance ≤ out.len) :
    (copyBack out distance length).len = out.len + length ∧
    (∀ i < out.len + length, (copyBack out distance length).mem i =
      copy length out.mem (out.len - distance) out.len i) ∧
    ∀ i, out.len + length ≤ i → (copyBack out distance length).mem i = out.mem i := by
  unfold copyBack
  by_cases hslice : length ≤ distance
  · have hcopied := @copySlice_copied out.mem (out.len - distance) out.len length
      (by omega) (by omega)
    simp only [if_pos hslice]
    exact ⟨trivial, fun i hi => hcopied.eq_copy (by omega) (by omega) hi, hcopied.above⟩
  by_cases hone : distance = 1
  · subst hone
    have hfill := broadcast_filled out.mem (out.len - 1) out.len length
    simp only [if_neg hslice, if_true]
    refine ⟨trivial, fun i hi => ?_, fun i hi => hfill.outside i (Or.inr hi)⟩
    obtain ⟨src, hsrc⟩ : ∃ src, out.len = src + 1 := ⟨out.len - 1, by omega⟩
    rw [hsrc] at hfill hi ⊢
    exact hfill.eq_copy hi
  · simp only [if_neg hslice, if_neg hone, pushFrom_eq]
    exact ⟨trivial, fun _ _ => trivial, fun i hi => copy_of_outside _ _ (Or.inr hi)⟩

/-- On a vector that holds the output, the copy is the copy of the output. -/
theorem copyBack_holds {out : ByteVec} {data : List UInt8} {distance length : ℕ}
    (h : Holds out.mem data) (hlen : out.len = data.length) (hd : 0 < distance)
    (hle : distance ≤ data.length) :
    Holds (copyBack out distance length).mem (Lz.copyBack data distance length) := by
  refine Holds.of_eq (h.copy length hd hle) fun i hi => ?_
  rw [Lz.copyBack_length hd hle] at hi
  rw [← hlen] at hi hle ⊢
  exact (copyBack_eq_copy out hd hle).2.1 i hi

end ByteVec

/-- The copy of the safe decoder, on the contents of its vector. -/
theorem copyBackRaw_eq_copy (out : List UInt8) {distance length : ℕ} (hd : 0 < distance)
    (hle : distance ≤ out.length) :
    (copyBackRaw out distance length).length = out.length + length ∧
    ∀ i < out.length + length, (copyBackRaw out distance length)[i]? =
      some (copy length (fun i => out.getD i 0) (out.length - distance) out.length i) := by
  have hlen := Lz.copyBack_length (n := length) hd hle
  rw [copyBackRaw_eq hd hle]
  refine ⟨hlen, fun i hi => ?_⟩
  exact (holds_getD out 0).copy length hd hle i (by rwa [hlen])

/-- **Every copy kernel is the copy of one element after the other.** For every memory, cursor,
distance between one and the cursor, and length, each kernel leaves at every position before the
end of the copy what the elementwise copy leaves there; so it changes nothing below the cursor.
It writes less than a chunk past that end, and the vectors' copies write nothing there. -/
theorem copyKernels_eq_copy (cur distance length : ℕ) (hd : 0 < distance) (hle : distance ≤ cur)
    (hlength : 0 < length) :
    (∀ m : ℕ → UInt8, ∀ N ∈ [16, 32],
      (∀ i < cur + length, FastCopy.copyBackRaw N m cur distance length i =
        copy length m (cur - distance) cur i) ∧
      ∀ i, cur + length + (N - 1) ≤ i → FastCopy.copyBackRaw N m cur distance length i = m i) ∧
    (∀ scratch : ℕ → ℕ,
      (∀ i < cur + length, copyBackU16 scratch cur distance length i =
        copy length scratch (cur - distance) cur i) ∧
      ∀ i, cur + length + 7 ≤ i → copyBackU16 scratch cur distance length i = scratch i) ∧
    (∀ m : ℕ → UInt8,
      (ByteVec.copyBack ⟨m, cur⟩ distance length).len = cur + length ∧
      (∀ i < cur + length, (ByteVec.copyBack ⟨m, cur⟩ distance length).mem i =
        copy length m (cur - distance) cur i) ∧
      ∀ i, cur + length ≤ i → (ByteVec.copyBack ⟨m, cur⟩ distance length).mem i = m i) ∧
    (∀ out : List UInt8, out.length = cur →
      (copyBackRaw out distance length).length = cur + length ∧
      ∀ i < cur + length, (copyBackRaw out distance length)[i]? =
        some (copy length (fun i => out.getD i 0) (cur - distance) cur i)) := by
  refine ⟨fun m N hN => ?_, fun scratch => copyBackU16_eq_copy scratch hd hle hlength,
    fun m => ByteVec.copyBack_eq_copy ⟨m, cur⟩ hd hle, ?_⟩
  · have hpos : 0 < N := by
      simp only [List.mem_cons, List.not_mem_nil, or_false] at hN
      omega
    exact FastCopy.copyBackRaw_eq_copy hpos m hd hle hlength
  · rintro out rfl
    exact copyBackRaw_eq_copy out hd hle

/-- Seven bytes from two bytes back: the last two bytes, over and over. -/
theorem copyKernels_eq_copy_seven :
    FastCopy.copyBackRaw 16 UInt8.ofNat 5 2 7 10 = 4 ∧
      FastCopy.copyBackRaw 16 UInt8.ofNat 5 2 7 11 = 3 := by
  have hcopy := ((copyKernels_eq_copy 5 2 7 (by decide) (by decide) (by decide)).1 UInt8.ofNat 16
    (by decide)).1
  exact ⟨(hcopy 10 (by decide)).trans (by decide), (hcopy 11 (by decide)).trans (by decide)⟩

end RustyRapidgzip
