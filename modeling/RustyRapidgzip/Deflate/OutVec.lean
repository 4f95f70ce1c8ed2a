import RustyRapidgzip.Deflate.Kernel
import RustyRapidgzip.Lib.Faults

/-!
# Vectors of bytes

The preload kernel and the external engines write into spare memory of a vector. A vector
here has its bytes and its capacity. A store that does not fit in the capacity is a fault: in
the code it goes past the allocation.
-/

namespace RustyRapidgzip

/-- How a vector grows: `reserve` makes room for the additional elements, and does nothing
where there is enough. -/
structure Reserve where
  reserve : ℕ → ℕ → ℕ → ℕ
  enough : ∀ capacity len additional, len + additional ≤ reserve capacity len additional
  kept : ∀ capacity len additional, len + additional ≤ capacity →
    reserve capacity len additional = capacity

/-- Growth by doubling. -/
def amortized : Reserve where
  reserve capacity len additional :=
    if len + additional ≤ capacity then capacity else max (2 * capacity) (len + additional)
  enough capacity len additional := by
    split <;> omega
  kept capacity len additional h := if_pos h

/-- What the code is built for: how its vectors grow, and the width of one chunk of a copy. -/
structure Build where
  grow : Reserve
  copyN : ℕ
  copyN_eq : copyN = 16 ∨ copyN = 32

/-- A chunk of a copy has a byte. -/
theorem Build.copyN_pos (build : Build) : 0 < build.copyN := by
  have := build.copyN_eq
  omega

/-- Growth by doubling and chunks of 16 bytes. -/
def narrow16 : Build := ⟨amortized, 16, Or.inl rfl⟩

/-! ## The bytes that a copy stores -/

/-- Where the chunks of a copy end: `while s < end`, one more chunk. -/
def chunkEnd (n length : ℕ) : ℕ → ℕ → ℕ
  | 0, offset => offset
  | rounds + 1, offset => if offset < length then chunkEnd n length rounds (offset + n) else offset

/-- The bytes a copy stores: whole chunks, or exactly its length if it overlaps. -/
def copyExtent (copyN distance length : ℕ) : ℕ :=
  if length ≤ distance then chunkEnd copyN length length copyN else length

/-- The last chunk of a copy reaches its end, and less than a chunk beyond it. -/
theorem chunkEnd_bounds {n : ℕ} (length : ℕ) (hn : 0 < n) {rounds offset : ℕ}
    (hrounds : length ≤ offset + rounds) :
    length ≤ chunkEnd n length rounds offset ∧
      chunkEnd n length rounds offset ≤ max offset (length + n - 1) := by
  induction rounds generalizing offset with
  | zero => exact ⟨hrounds, Nat.le_max_left _ _⟩
  | succ rounds ih =>
    rw [chunkEnd]
    by_cases hmore : offset < length
    · rw [if_pos hmore]
      obtain ⟨hle, hlt⟩ := ih (show length ≤ offset + n + rounds by omega)
      exact ⟨hle, by omega⟩
    · rw [if_neg hmore]
      exact ⟨by omega, Nat.le_max_left _ _⟩

/-- The chunks of a copy end at a multiple of their width. -/
theorem dvd_chunkEnd {n length rounds offset : ℕ} (hoffset : n ∣ offset) :
    n ∣ chunkEnd n length rounds offset := by
  induction rounds generalizing offset with
  | zero => exact hoffset
  | succ rounds ih =>
    rw [chunkEnd]
    split
    · exact ih (Nat.dvd_add hoffset (Nat.dvd_refl n))
    · exact hoffset

/-- A copy stores its length, and less than a chunk more. -/
theorem copyExtent_bounds {copyN : ℕ} (hn : 0 < copyN) (distance length : ℕ) :
    length ≤ copyExtent copyN distance length ∧
      copyExtent copyN distance length ≤ max copyN (length + copyN - 1) := by
  unfold copyExtent
  by_cases hslice : length ≤ distance
  · rw [if_pos hslice]
    exact chunkEnd_bounds length hn (by omega)
  · rw [if_neg hslice]
    omega

/-- The longest copy stores at most 256 bytes and a chunk. -/
theorem copyExtent_le {copyN : ℕ} (hn : copyN = 16 ∨ copyN = 32) (distance : ℕ) {length : ℕ}
    (hlength : length ≤ 258) : copyExtent copyN distance length ≤ 256 + copyN := by
  have hbound := (copyExtent_bounds (show 0 < copyN by omega) distance length).2
  unfold copyExtent at hbound ⊢
  by_cases hslice : length ≤ distance
  · rw [if_pos hslice] at hbound ⊢
    obtain ⟨k, hk⟩ : copyN ∣ chunkEnd copyN length length copyN := dvd_chunkEnd (Nat.dvd_refl _)
    rw [hk] at hbound ⊢
    rcases hn with rfl | rfl <;> omega
  · rw [if_neg hslice]
    omega

/-- A copy adds no more than its length. -/
theorem copyBackRaw_length_le {α : Type} [Inhabited α] (out : List α) (distance length : ℕ) :
    (copyBackRaw out distance length).length ≤ out.length + length := by
  have hloop (n start : ℕ) (out : List α) : (copyLoop start n out).length = out.length + n := by
    induction n generalizing start out with
    | zero => rfl
    | succ n ih =>
      rw [copyLoop, ih, List.length_append, List.length_singleton]
      omega
  unfold copyBackRaw
  simp only
  split
  · rw [List.length_append, List.length_take]
    omega
  · split
    · rw [List.length_append, List.length_replicate]
    · rw [hloop]

/-! ## Vectors -/

/-- A vector: the bytes it holds, and the memory it has. -/
structure OutVec where
  bytes : List UInt8
  capacity : ℕ
  fits : bytes.length ≤ capacity

namespace OutVec

variable {ε : Type} {v v' : OutVec}

/-- The spare memory behind the bytes. -/
def room (v : OutVec) : ℕ := v.capacity - v.bytes.length

/-- A vector that holds the bytes and has the capacity, where it is enough. -/
def ofBytes (bytes : List UInt8) (capacity : ℕ) : OutVec :=
  ⟨bytes, max bytes.length capacity, Nat.le_max_left _ _⟩

/-- The bytes fit in the vector that has been reserved. -/
theorem fits_reserve (grow : Reserve) (v : OutVec) (additional : ℕ) :
    v.bytes.length ≤ grow.reserve v.capacity v.bytes.length additional :=
  Nat.le_trans (Nat.le_add_right _ _) (grow.enough v.capacity v.bytes.length additional)

/-- Make room for additional bytes. -/
def reserve (grow : Reserve) (v : OutVec) (additional : ℕ) : OutVec :=
  ⟨v.bytes, grow.reserve v.capacity v.bytes.length additional, fits_reserve grow v additional⟩

/-- Reserve where less than the needed room is left. -/
def ensure (grow : Reserve) (v : OutVec) (need additional : ℕ) : OutVec :=
  if v.room < need then v.reserve grow additional else v

/-- The bytes fit with one more. -/
theorem fits_push (v : OutVec) (b : UInt8) {capacity : ℕ} (h : v.bytes.length + 1 ≤ capacity) :
    (v.bytes ++ [b]).length ≤ capacity := by
  rwa [List.length_append, List.length_singleton]

/-- `Vec::push`, which grows a full vector. -/
def push (grow : Reserve) (v : OutVec) (b : UInt8) : OutVec :=
  ⟨v.bytes ++ [b], grow.reserve v.capacity v.bytes.length 1, fits_push v b (grow.enough _ _ _)⟩

/-- Store one byte behind the others, through a pointer. -/
def store (v : OutVec) (b : UInt8) : Except (Stop ε) OutVec :=
  if h : v.bytes.length + 1 ≤ v.capacity then .ok ⟨v.bytes ++ [b], v.capacity, fits_push v b h⟩
  else .error .fault

/-- The bytes fit with a copy whose stores do. -/
theorem fits_copyBack (build : Build) (v : OutVec) {distance length : ℕ}
    (h : v.bytes.length + copyExtent build.copyN distance length ≤ v.capacity) :
    (copyBackRaw v.bytes distance length).length ≤ v.capacity := by
  have hle := copyBackRaw_length_le v.bytes distance length
  have hextent := (copyExtent_bounds build.copyN_pos distance length).1
  omega

/-- `copy_back_raw`: a copy by whole chunks, through a pointer. -/
def copyBack (build : Build) (v : OutVec) (distance length : ℕ) : Except (Stop ε) OutVec :=
  if h : v.bytes.length + copyExtent build.copyN distance length ≤ v.capacity then
    .ok ⟨copyBackRaw v.bytes distance length, v.capacity, fits_copyBack build v h⟩
  else .error .fault

/-- A reservation keeps the bytes. -/
@[simp] theorem reserve_bytes (grow : Reserve) (v : OutVec) (additional : ℕ) :
    (v.reserve grow additional).bytes = v.bytes := rfl

/-- A vector of bytes holds them. -/
@[simp] theorem ofBytes_bytes (bytes : List UInt8) (capacity : ℕ) :
    (ofBytes bytes capacity).bytes = bytes := rfl

/-- A push appends the byte. -/
@[simp] theorem push_bytes (grow : Reserve) (v : OutVec) (b : UInt8) :
    (v.push grow b).bytes = v.bytes ++ [b] := rfl

/-- Making room keeps the bytes. -/
@[simp] theorem ensure_bytes (grow : Reserve) (v : OutVec) (need additional : ℕ) :
    (v.ensure grow need additional).bytes = v.bytes := by
  unfold ensure
  split <;> rfl

/-- After a reservation there is the room. -/
theorem le_room_reserve (grow : Reserve) (v : OutVec) (additional : ℕ) :
    additional ≤ (v.reserve grow additional).room := by
  have henough := grow.enough v.capacity v.bytes.length additional
  simp only [room, reserve]
  omega

/-- A store with room appends the byte. -/
theorem store_of_room (b : UInt8) (h : v.bytes.length + 1 ≤ v.capacity) :
    (v.store b : Except (Stop ε) OutVec) = .ok ⟨v.bytes ++ [b], v.capacity, fits_push v b h⟩ :=
  dif_pos h

/-- A store without room is a fault. -/
theorem store_of_full (b : UInt8) (h : ¬v.bytes.length + 1 ≤ v.capacity) :
    (v.store b : Except (Stop ε) OutVec) = .error .fault := dif_neg h

/-- A copy whose stores have room copies. -/
theorem copyBack_of_room {build : Build} {distance length : ℕ}
    (h : v.bytes.length + copyExtent build.copyN distance length ≤ v.capacity) :
    (v.copyBack build distance length : Except (Stop ε) OutVec) =
      .ok ⟨copyBackRaw v.bytes distance length, v.capacity, fits_copyBack build v h⟩ := dif_pos h

/-- A copy one of whose stores has no room is a fault. -/
theorem copyBack_of_full {build : Build} {distance length : ℕ}
    (h : ¬v.bytes.length + copyExtent build.copyN distance length ≤ v.capacity) :
    (v.copyBack build distance length : Except (Stop ε) OutVec) = .error .fault := dif_neg h

end OutVec

end RustyRapidgzip
