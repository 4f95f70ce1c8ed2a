import RustyRapidgzip.Deflate.SideTable
import RustyRapidgzip.Deflate.Markers
import RustyRapidgzip.Deflate.MarkerScan

/-!
# What a speculative chunk represents

Three producers append to a chunk: the windows of cells, the plain bytes, and the markers of a
side table. Whatever their order, the markers stand in ascending positions on zero bytes, name
bytes of the last 32 KiB, and all other bytes are the ones that were appended. The search for the
markers of a tail and the resolution rely on it.
-/

namespace RustyRapidgzip

open Lz

/-! ## The side table behind other bytes -/

namespace SideTable

/-- The output behind bytes that the chunk already had. -/
def Output.behind (before : List UInt8) (t : Output) : Output :=
  { t with bytes := before ++ t.bytes }

section Behind

variable (before : List UInt8)

/-- A push behind other bytes. -/
theorem behind_push (t : Output) (bytes : List UInt8) :
    (t.push bytes).behind before = (t.behind before).push bytes := by
  rw [Output.push, Output.behind, Output.behind, Output.push, List.append_assoc]

/-- A copy within the new bytes. -/
theorem copyBackRaw_behind {bytes : List UInt8} {d : ℕ} (n : ℕ) (hd : 0 < d)
    (hle : d ≤ bytes.length) :
    copyBackRaw (before ++ bytes) d n = before ++ copyBackRaw bytes d n := by
  have hle' : d ≤ (before ++ bytes).length := by
    rw [List.length_append]
    omega
  rw [copyBackRaw_eq hd hle', copyBackRaw_eq hd hle, copyBack_append_left _ hd hle]

/-- Copies do not look at the bytes before. -/
theorem resolve_behind (t : Output) (d n : ℕ) :
    resolve before.length (t.behind before) d n =
      (resolve 0 t d n).map (Output.behind before) := by
  have hemitted : (t.behind before).bytes.length - before.length = t.bytes.length - 0 := by
    rw [Output.behind, List.length_append]
    omega
  unfold resolve
  simp only [hemitted]
  by_cases hover : t.bytes.length - 0 < d
  · rw [if_pos hover, if_pos hover]
    by_cases hrest : 0 < n - min (d - (t.bytes.length - 0)) n
    · have hlen : d ≤ (t.bytes ++
          List.replicate (min (d - (t.bytes.length - 0)) n) (0 : UInt8)).length := by
        rw [List.length_append, List.length_replicate]
        omega
      rw [if_pos hrest, if_pos hrest, Output.behind, List.append_assoc,
        copyBackRaw_behind before _ (by omega) hlen]
      rfl
    · rw [if_neg hrest, if_neg hrest, Output.behind, List.append_assoc]
      rfl
  · rw [if_neg hover, if_neg hover]
    by_cases hzero : d = 0
    · rw [if_pos hzero, if_pos hzero]
      rfl
    · rw [if_neg hzero, if_neg hzero, Output.behind,
        copyBackRaw_behind before _ (by omega) (by omega)]
      rfl

/-- Reading a copy and making it. -/
theorem copyMatch_behind (dist : HuffmanDecoder) (length : ℕ) (t : Output) (br : BitReader) :
    copyMatch (resolve before.length) dist length (t.behind before) br =
      (copyMatch (resolve 0) dist length t br).map (Prod.map (Output.behind before) id) := by
  unfold copyMatch
  cases distanceOf dist br with
  | error e => rfl
  | ok r =>
    obtain ⟨d, br⟩ := r
    simp only [bind, Except.bind, resolve_behind]
    cases resolve 0 t d length <;> rfl

/-- A round behind other bytes. -/
theorem round_behind (lit dist : HuffmanDecoder) (s : Output × BitReader) :
    round before.length lit dist (Prod.map (Output.behind before) id s) =
      (round 0 lit dist s).map
        (Sum.map (Prod.map (Output.behind before) id) (Prod.map (Output.behind before) id)) := by
  obtain ⟨t, br⟩ := s
  unfold round
  simp only [Prod.map, id]
  cases br.refillKernel with
  | error e => rfl
  | ok br =>
    simp only
    cases lit.lookupFilled br with
    | error e => rfl
    | ok r =>
      obtain ⟨entry, br⟩ := r
      simp only [copyMatch_behind, ← behind_push]
      split
      · split <;> rfl
      · split
        · split <;> rfl
        · cases copyMatch (resolve 0) dist (lengthOf entry br).1 t (lengthOf entry br).2 <;> rfl

/-- The kernel behind other bytes. -/
theorem decodeCompressed_behind (lit dist : HuffmanDecoder) (t : Output) (br : BitReader) :
    decodeCompressed before.length lit dist (t.behind before) br =
      (decodeCompressed 0 lit dist t br).map (Prod.map (Output.behind before) id) :=
  Loop.iterate_map (round_behind before lit dist) (8 * br.input.length + 1) (t, br)

/-- Stored bytes behind other bytes. -/
theorem pushBytes_behind (n : ℕ) (bytes : List UInt8) (br : BitReader) :
    pushBytes n (before ++ bytes) br = (pushBytes n bytes br).map (Prod.map (before ++ ·) id) := by
  induction n generalizing bytes br with
  | zero => rfl
  | succ n ih =>
    unfold pushBytes
    cases br.read 8 with
    | error e => rfl
    | ok r =>
      have hnext := ih (bytes ++ [UInt8.ofNat r.1]) r.2
      rw [← List.append_assoc] at hnext
      exact hnext

/-- A stored block behind other bytes. -/
theorem decodeStored_behind (bytes : List UInt8) (br : BitReader) :
    decodeStored br (before ++ bytes) =
      (decodeStored br bytes).map (Prod.map (before ++ ·) id) := by
  unfold decodeStored
  simp only [bind, Except.bind, pushBytes_behind]
  cases br.byteAlign.read 16 with
  | error e => rfl
  | ok r =>
    simp only
    cases r.2.read 16 with
    | error e => rfl
    | ok r' =>
      simp only
      split <;> rfl

/-- The contents of a block behind other bytes. -/
theorem decodeBlock_behind (btype : ℕ) (t : Output) (br : BitReader) :
    decodeBlock btype before.length (t.behind before) br =
      (decodeBlock btype 0 t br).map (Prod.map (Output.behind before) id) := by
  unfold decodeBlock
  split
  · rw [Output.behind, decodeStored_behind]
    cases decodeStored br t.bytes <;> rfl
  · cases blockTrees btype br with
    | error e => rfl
    | ok r => exact decodeCompressed_behind before r.1.1 r.1.2 t r.2

/-- A block behind other bytes. -/
theorem decodeOneBlock_behind (t : Output) (br : BitReader) :
    decodeOneBlock before.length (t.behind before) br =
      (decodeOneBlock 0 t br).map (Prod.map (Prod.map id (Output.behind before)) id) := by
  unfold decodeOneBlock
  cases br.read 1 with
  | error e => rfl
  | ok r =>
    simp only [bind, Except.bind]
    cases r.2.read 2 with
    | error e => rfl
    | ok r' =>
      simp only [decodeBlock_behind]
      cases decodeBlock r'.1 0 t r'.2 <;> rfl

/-- A round over the blocks behind other bytes. -/
theorem untilRound_behind (endBitHint : ℕ) (s : Output × BitReader) :
    untilRound before.length endBitHint (Prod.map (Output.behind before) id s) =
      (untilRound 0 endBitHint s).map (Sum.map (Prod.map (Output.behind before) id)
        (Prod.map (Prod.map id (Output.behind before)) id)) := by
  obtain ⟨t, br⟩ := s
  unfold untilRound
  simp only [Prod.map, id, decodeOneBlock_behind]
  cases decodeOneBlock 0 t br with
  | error e => rfl
  | ok r =>
    obtain ⟨⟨bfinal, t⟩, br⟩ := r
    cases bfinal with
    | true => rfl
    | false =>
      by_cases hhint : endBitHint ≤ br.tellBit
      · simp [Except.map, hhint]
      · simp [Except.map, hhint]

/-- The blocks behind other bytes. -/
theorem iterate_untilRound_behind (endBitHint fuel : ℕ) (t : Output) (br : BitReader) :
    Loop.iterate .outOfFuel (untilRound before.length endBitHint) fuel (t.behind before, br) =
      (Loop.iterate .outOfFuel (untilRound 0 endBitHint) fuel (t, br)).map
        (Prod.map (Prod.map id (Output.behind before)) id) :=
  Loop.iterate_map (untilRound_behind before endBitHint) fuel (t, br)

end Behind

end SideTable

/-! ## Chunks in the making -/

/-- The chunks that the producers make, with what each byte came from. The number is the length
after the last markers: from there on only plain bytes were appended. -/
inductive Built : SpeculativeChunk → List ℕ → ℕ → Prop
  | new : Built ⟨[], []⟩ [] 0
  | window {chunk origin since} (cells : List ℕ) (h : Built chunk origin since)
      (hsize : origin.length + cells.length < 2 ^ 32) :
      Built (chunk.extractFromU16 cells) (origin ++ cells) (origin.length + cells.length)
  | plain {chunk origin since} (data : List UInt8) (h : Built chunk origin since)
      (hsize : origin.length + data.length < 2 ^ 32) :
      Built { chunk with bytes := chunk.bytes ++ data } (origin ++ data.map UInt8.toNat) since
  | table {chunk origin since} (src : List Marker) (base : ℕ) (h : Built chunk origin since)
      (hsince : since ≤ base) (hsorted : src.Pairwise fun m m' => m.outPos < m'.outPos)
      (hnames : ∀ m ∈ src, chunk.bytes[base + m.outPos]? = some 0 ∧ m.prefixOffset < 32768) :
      Built (chunk.bytesOffsetMarkers src base) origin origin.length

/-- What a chunk represents: markers in ascending positions on zero bytes, each naming a byte of
a window, and everywhere else the low bytes of the cells and bytes it was made from. -/
structure Represents (chunk : SpeculativeChunk) (origin : List ℕ) : Prop where
  length_eq : chunk.bytes.length = origin.length
  sorted : chunk.markers.Pairwise fun m m' => m.outPos < m'.outPos
  outPos_lt : ∀ m ∈ chunk.markers, m.outPos < chunk.bytes.length
  prefixOffset_lt : ∀ m ∈ chunk.markers, m.prefixOffset < 32768
  placeholder : ∀ m ∈ chunk.markers, chunk.bytes[m.outPos]? = some 0
  unmarked : ∀ p cell, origin[p]? = some cell → (∀ m ∈ chunk.markers, m.outPos ≠ p) →
    chunk.bytes[p]? = some (UInt8.ofNat cell)

section Represents

variable {chunk : SpeculativeChunk} {origin : List ℕ} {since : ℕ}

/-- An empty chunk stands for no cells. -/
theorem represents_new : Represents ⟨[], []⟩ [] := by
  constructor <;> simp

/-- More markers behind the ones that a chunk has. -/
theorem sorted_append {markers more : List Marker}
    (hsorted : markers.Pairwise fun m m' => m.outPos < m'.outPos)
    (hmore : more.Pairwise fun m m' => m.outPos < m'.outPos)
    (hbelow : ∀ m ∈ markers, m.outPos < since) (habove : ∀ m ∈ more, since ≤ m.outPos) :
    (markers ++ more).Pairwise fun m m' => m.outPos < m'.outPos := by
  refine List.pairwise_append.mpr ⟨hsorted, hmore, fun m hm m' hm' => ?_⟩
  have := hbelow m hm
  have := habove m' hm'
  omega

/-- A window appends its narrowed cells and their markers. -/
theorem extractFromU16_eq (chunk : SpeculativeChunk) (cells : List ℕ) :
    chunk.extractFromU16 cells =
      ⟨chunk.bytes ++ cells.map narrow, chunk.markers ++ marks chunk.bytes.length cells⟩ :=
  recordMarkers_eq chunk.bytes.length 0 cells chunk.bytes chunk.markers rfl

/-- The markers of cells stand on zero bytes, and the other bytes are the low bytes. -/
theorem map_narrow_spec {cells : List ℕ} {base : ℕ} (hsize : base + cells.length ≤ 2 ^ 32) :
    (∀ m ∈ marks base cells, ∃ i, m.outPos = base + i ∧ (cells.map narrow)[i]? = some 0) ∧
    ∀ i cell, cells[i]? = some cell → (∀ m ∈ marks base cells, m.outPos ≠ base + i) →
      (cells.map narrow)[i]? = some (UInt8.ofNat cell) := by
  constructor
  · intro m hm
    obtain ⟨i, cell, hcell, hmarker, rfl⟩ := (mem_marks_iff hsize).mp hm
    refine ⟨i, rfl, ?_⟩
    rw [List.getElem?_map, hcell, Option.map_some, narrow, if_pos hmarker]
  · intro i cell hcell hnone
    have hbyte : ¬cell &&& MARKER16 ≠ 0 := fun hmarker =>
      hnone _ ((mem_marks_iff hsize).mpr ⟨i, cell, hcell, hmarker, rfl⟩) rfl
    rw [List.getElem?_map, hcell, Option.map_some, narrow, if_neg hbyte]

/-- Appending a window. -/
theorem Represents.window (h : Represents chunk origin) {cells : List ℕ}
    (hsize : origin.length + cells.length < 2 ^ 32) :
    Represents (chunk.extractFromU16 cells) (origin ++ cells) := by
  have hlen := h.length_eq
  have hsize' : chunk.bytes.length + cells.length ≤ 2 ^ 32 := by omega
  have hnear := nearMarkers_of_length hsize'
  have habove := outPos_marks hnear
  obtain ⟨hzero, hbyte⟩ := map_narrow_spec hsize'
  rw [extractFromU16_eq]
  constructor
  · simp [hlen]
  · exact sorted_append h.sorted (pairwise_marks hnear) h.outPos_lt habove
  · intro m hm
    rw [List.length_append, List.length_map]
    rcases List.mem_append.mp hm with hold | hnew
    · have := h.outPos_lt m hold
      omega
    · exact (outPos_lt_marks _ _ m hnew).2
  · intro m hm
    rcases List.mem_append.mp hm with hold | hnew
    · exact h.prefixOffset_lt m hold
    · have := prefixOffset_marks _ _ m hnew
      omega
  · intro m hm
    rcases List.mem_append.mp hm with hold | hnew
    · rw [List.getElem?_append_left (h.outPos_lt m hold)]
      exact h.placeholder m hold
    · obtain ⟨i, hi, hget⟩ := hzero m hnew
      rw [List.getElem?_append_right (habove m hnew), hi, Nat.add_sub_cancel_left]
      exact hget
  · intro p cell hcell hnone
    simp only [List.forall_mem_append] at hnone
    by_cases hold : p < origin.length
    · rw [List.getElem?_append_left hold] at hcell
      rw [List.getElem?_append_left (hlen ▸ hold)]
      exact h.unmarked p cell hcell hnone.1
    · rw [List.getElem?_append_right (Nat.not_lt.mp hold)] at hcell
      rw [List.getElem?_append_right (by omega), hlen]
      refine hbyte _ cell hcell fun m hm => ?_
      rw [show chunk.bytes.length + (p - origin.length) = p by omega]
      exact hnone.2 m hm

/-- Appending plain bytes is appending the window of their cells. -/
theorem append_eq_window (chunk : SpeculativeChunk) (data : List UInt8) :
    ({ chunk with bytes := chunk.bytes ++ data } : SpeculativeChunk) =
      chunk.extractFromU16 (data.map UInt8.toNat) := by
  have hnarrow : (data.map UInt8.toNat).map narrow = data := by
    rw [List.map_map]
    exact (List.map_congr_left fun b _ => narrow_toNat b).trans (List.map_id _)
  rw [extractFromU16_eq, marks_bytes, hnarrow, List.append_nil]

/-- Moving the markers of a table into the chunk, whose placeholders are behind all its
markers. -/
theorem Represents.table (h : Represents chunk origin) {src : List Marker} {base : ℕ}
    (hsize : origin.length < 2 ^ 32) (hsince : ∀ m ∈ chunk.markers, m.outPos < base)
    (hsorted : src.Pairwise fun m m' => m.outPos < m'.outPos)
    (hnames : ∀ m ∈ src, chunk.bytes[base + m.outPos]? = some 0 ∧ m.prefixOffset < 32768) :
    Represents (chunk.bytesOffsetMarkers src base) origin := by
  have hlen := h.length_eq
  have hinside (m : Marker) (hm : m ∈ src) : base + m.outPos < chunk.bytes.length :=
    (List.getElem?_eq_some_iff.mp (hnames m hm).1).1
  have hpos (m : Marker) (hm : m ∈ src) : (m.outPos + base) % 2 ^ 32 = base + m.outPos := by
    have := hinside m hm
    rw [Nat.mod_eq_of_lt (by omega), Nat.add_comm]
  have hmoved : (chunk.bytesOffsetMarkers src base).markers = chunk.markers ++
      src.map fun m => ⟨base + m.outPos, m.prefixOffset⟩ := by
    refine congrArg (chunk.markers ++ ·) (List.map_congr_left fun m hm => ?_)
    rw [hpos m hm]
  have hbytes : (chunk.bytesOffsetMarkers src base).bytes = chunk.bytes := rfl
  constructor
  · rw [hbytes, hlen]
  · rw [hmoved]
    refine sorted_append h.sorted ?_ hsince ?_
    · refine List.pairwise_map.mpr (hsorted.imp fun hlt => ?_)
      simp only
      omega
    · simp
  · rw [hmoved, hbytes, List.forall_mem_append, List.forall_mem_map]
    exact ⟨h.outPos_lt, hinside⟩
  · rw [hmoved, List.forall_mem_append, List.forall_mem_map]
    exact ⟨h.prefixOffset_lt, fun m hm => (hnames m hm).2⟩
  · rw [hmoved, hbytes, List.forall_mem_append, List.forall_mem_map]
    exact ⟨h.placeholder, fun m hm => (hnames m hm).1⟩
  · intro p cell hcell hnone
    rw [hmoved, List.forall_mem_append] at hnone
    exact h.unmarked p cell hcell hnone.1

/-- Whatever the producers do, the chunk represents what was appended, and its markers stand
before the trailing plain bytes. -/
theorem Built.represents (h : Built chunk origin since) :
    Represents chunk origin ∧ origin.length < 2 ^ 32 ∧ since ≤ origin.length ∧
      ∀ m ∈ chunk.markers, m.outPos < since := by
  induction h with
  | new => exact ⟨represents_new, by simp⟩
  | window cells _ hsize ih =>
    have hrep := ih.1.window hsize
    have hlen := hrep.length_eq
    rw [List.length_append] at hlen ⊢
    exact ⟨hrep, hsize, le_rfl, fun m hm => hlen ▸ hrep.outPos_lt m hm⟩
  | plain data _ hsize ih =>
    obtain ⟨hrep, -, hsince, hbelow⟩ := ih
    have hmore := @Represents.window _ _ hrep (data.map UInt8.toNat) (by rwa [List.length_map])
    rw [← append_eq_window] at hmore
    refine ⟨hmore, ?_, ?_, hbelow⟩
    · rwa [List.length_append, List.length_map]
    · rw [List.length_append]
      omega
  | table src base _ hsince hsorted hnames ih =>
    obtain ⟨hrep, hsize, -, hbelow⟩ := ih
    have hmore := hrep.table hsize (fun m hm => Nat.lt_of_lt_of_le (hbelow m hm) hsince) hsorted
      hnames
    exact ⟨hmore, hsize, le_rfl, fun m hm => hmore.length_eq ▸ hmore.outPos_lt m hm⟩

end Represents

/-! ## Resolution in place -/

/-- Fill the marked places in turn. The bytes are returned as they stand, also where a marker
cannot be filled. -/
def fillMarkersMut (prevTail : List UInt8) : List Marker → List UInt8 →
    Except DeflateError Unit × List UInt8
  | [], bytes => (.ok (), bytes)
  | m :: markers, bytes =>
    let off := m.prefixOffset
    if prevTail.length ≤ off then
      (.error (.invalid "marker references bytes outside the available prefix window"), bytes)
    else
      fillMarkersMut prevTail markers
        (bytes.set m.outPos (prevTail.getD (prevTail.length - 1 - off) 0))

/-- Resolve a chunk in place. The markers are dropped once all of them are filled. -/
def resolveMarkersMut (chunk : SpeculativeChunk) (prevTail : List UInt8) :
    Except DeflateError Unit × SpeculativeChunk :=
  match fillMarkersMut prevTail chunk.markers chunk.bytes with
  | (.error e, bytes) => (.error e, { chunk with bytes := bytes })
  | (.ok (), bytes) => (.ok (), ⟨bytes, []⟩)

/-- The markers in front are filled, and no other byte has changed. -/
structure FilledUpTo (tail bytes : List UInt8) (done : List Marker) (bytes' : List UInt8) :
    Prop where
  length_eq : bytes'.length = bytes.length
  filled : ∀ m ∈ done, m.prefixOffset < tail.length ∧
    bytes'[m.outPos]? = tail[tail.length - 1 - m.prefixOffset]?
  kept : ∀ p, (∀ m ∈ done, m.outPos ≠ p) → bytes'[p]? = bytes[p]?

/-- What resolution does to a chunk: it fills all markers and drops them, or it stops at the
first one that the tail does not reach, keeps them, and the rest are still zero. -/
def ResolvedBy (tail : List UInt8) (chunk : SpeculativeChunk) :
    Except DeflateError Unit × SpeculativeChunk → Prop
  | (.ok (), chunk') =>
    chunk'.markers = [] ∧ FilledUpTo tail chunk.bytes chunk.markers chunk'.bytes
  | (.error _, chunk') =>
    chunk'.markers = chunk.markers ∧ ∃ done m rest, chunk.markers = done ++ m :: rest ∧
      tail.length ≤ m.prefixOffset ∧ FilledUpTo tail chunk.bytes done chunk'.bytes ∧
      ∀ m' ∈ m :: rest, chunk'.bytes[m'.outPos]? = some 0

section Resolve

variable {tail bytes : List UInt8} {markers : List Marker} {chunk : SpeculativeChunk}
  {origin : List ℕ} {since : ℕ}

/-- The result alone is the one of resolution. -/
theorem resolveMarkers_eq_mut (chunk : SpeculativeChunk) (tail : List UInt8) :
    resolveMarkers chunk tail = (resolveMarkersMut chunk tail).1.map fun _ =>
      (resolveMarkersMut chunk tail).2 := by
  have hfill (markers : List Marker) (bytes : List UInt8) : fillMarkers tail markers bytes =
      (fillMarkersMut tail markers bytes).1.map fun _ => (fillMarkersMut tail markers bytes).2 := by
    induction markers generalizing bytes with
    | nil => rfl
    | cons m markers ih =>
      rw [fillMarkers, fillMarkersMut]
      by_cases hoff : tail.length ≤ m.prefixOffset
      · rw [if_pos hoff, if_pos hoff]
        rfl
      · rw [if_neg hoff, if_neg hoff, ih]
  unfold resolveMarkers resolveMarkersMut
  rw [hfill]
  rcases fillMarkersMut tail chunk.markers chunk.bytes with ⟨_ | ⟨⟩, bytes⟩ <;> rfl

/-- Filling one marker, then those behind it. -/
theorem FilledUpTo.cons {m : Marker} {done : List Marker} {bytes' : List UInt8}
    (hbelow : ∀ m' ∈ done, m.outPos < m'.outPos) (hroom : m.outPos < bytes.length)
    (hoff : m.prefixOffset < tail.length)
    (h : FilledUpTo tail (bytes.set m.outPos (tail.getD (tail.length - 1 - m.prefixOffset) 0))
      done bytes') :
    FilledUpTo tail bytes (m :: done) bytes' := by
  constructor
  · rw [h.length_eq, List.length_set]
  · refine List.forall_mem_cons.mpr ⟨⟨hoff, ?_⟩, h.filled⟩
    rw [h.kept _ fun m' hm' => (hbelow m' hm').ne', List.getElem?_set_self hroom,
      List.getElem?_eq_getElem (by omega), List.getD_eq_getElem _ _ (by omega)]
  · intro p hp
    rw [List.forall_mem_cons] at hp
    rw [h.kept p hp.2, List.getElem?_set_ne hp.1]

/-- Filling stops at the first marker that the tail does not reach. -/
theorem fillMarkersMut_spec (tail : List UInt8)
    (hsorted : markers.Pairwise fun m m' => m.outPos < m'.outPos)
    (hroom : ∀ m ∈ markers, m.outPos < bytes.length) :
    ((fillMarkersMut tail markers bytes).1 = .ok () ∧
      FilledUpTo tail bytes markers (fillMarkersMut tail markers bytes).2) ∨
    ∃ e done m rest, (fillMarkersMut tail markers bytes).1 = .error e ∧
      markers = done ++ m :: rest ∧ tail.length ≤ m.prefixOffset ∧
      FilledUpTo tail bytes done (fillMarkersMut tail markers bytes).2 := by
  induction markers generalizing bytes with
  | nil => exact Or.inl ⟨rfl, ⟨rfl, nofun, fun _ _ => rfl⟩⟩
  | cons m markers ih =>
    obtain ⟨hbelow, hsorted⟩ := List.pairwise_cons.mp hsorted
    obtain ⟨hfirst, hroom⟩ := List.forall_mem_cons.mp hroom
    rw [fillMarkersMut]
    by_cases hoff : tail.length ≤ m.prefixOffset
    · rw [if_pos hoff]
      exact Or.inr ⟨_, [], m, markers, rfl, rfl, hoff, ⟨rfl, nofun, fun _ _ => rfl⟩⟩
    · rw [if_neg hoff]
      have hrest := @ih (bytes.set m.outPos (tail.getD (tail.length - 1 - m.prefixOffset) 0))
        hsorted (by simpa using hroom)
      rcases hrest with ⟨hok, hfilled⟩ | ⟨e, done, m', rest, herr, rfl, hoff', hfilled⟩
      · exact Or.inl ⟨hok, hfilled.cons hbelow hfirst (by omega)⟩
      · refine Or.inr ⟨e, m :: done, m', rest, herr, rfl, hoff', ?_⟩
        exact hfilled.cons (fun m'' hm'' => hbelow m'' (List.mem_append_left _ hm'')) hfirst
          (by omega)

/-- Resolving a chunk that represents what was appended. -/
theorem Represents.resolved (h : Represents chunk origin) (tail : List UInt8) :
    ResolvedBy tail chunk (resolveMarkersMut chunk tail) := by
  have hspec := fillMarkersMut_spec tail h.sorted h.outPos_lt
  unfold resolveMarkersMut
  generalize fillMarkersMut tail chunk.markers chunk.bytes = r at hspec ⊢
  obtain ⟨res, bytes⟩ := r
  rcases hspec with ⟨rfl, hfilled⟩ | ⟨e, done, m, rest, rfl, hsplit, hoff, hfilled⟩
  · exact ⟨rfl, hfilled⟩
  · refine ⟨rfl, done, m, rest, hsplit, hoff, hfilled, fun m' hm' => ?_⟩
    have hmem : m' ∈ chunk.markers := hsplit ▸ List.mem_append_right _ hm'
    have hsorted := h.sorted
    rw [hsplit, List.pairwise_append] at hsorted
    have hkept := hfilled.kept m'.outPos fun m'' hm'' => (hsorted.2.2 m'' hm'' m' hm').ne
    exact hkept.trans (h.placeholder m' hmem)

end Resolve

/-! ## The older decoder as a producer -/

section Until

variable {chunk : SpeculativeChunk} {origin : List ℕ} {since : ℕ}

/-- The older decoder appends bytes and then the markers of its table, which name placeholders
among them. -/
theorem Built.decodeUntil (h : Built chunk origin since) {input : List UInt8}
    {startBit endBitHint e : ℕ} {f : Bool} {chunk' : SpeculativeChunk}
    (hrun : RustyRapidgzip.decodeUntil input startBit endBitHint chunk = .ok ((e, f), chunk'))
    (hsize : chunk'.bytes.length < 2 ^ 32) :
    ∃ data : List UInt8, chunk'.bytes = chunk.bytes ++ data ∧
      Built chunk' (origin ++ data.map UInt8.toNat) chunk'.bytes.length := by
  obtain ⟨hrep, -, hsince, -⟩ := h.represents
  unfold RustyRapidgzip.decodeUntil at hrun
  rcases BitReader.seekToBit_at input startBit with ⟨hle, br, hseek, hat⟩ | ⟨hlt, hseek⟩
  swap
  · rw [hseek] at hrun
    cases hrun
  have hbehind := SideTable.iterate_untilRound_behind chunk.bytes endBitHint
    (8 * br.input.length + 1) ⟨[], ⟨[], none, 0, 0⟩⟩ br
  rw [SideTable.Output.behind, List.append_nil] at hbehind
  have hblocks := SideTable.blocksFollow_iterate endBitHint SideTable.tracks_nil hat
    (show ((LsbBits.bits input).drop startBit).length < 8 * br.input.length + 1 by
      have := hat.length_le
      rw [hat.input_eq]
      omega)
  rw [hseek] at hrun
  simp only [bind, Except.bind, hbehind] at hrun
  generalize Loop.iterate .outOfFuel (SideTable.untilRound 0 endBitHint) (8 * br.input.length + 1)
    ((⟨[], ⟨[], none, 0, 0⟩⟩ : SideTable.Output), br) = r at hrun hblocks
  cases r with
  | error err => cases hrun
  | ok r =>
    obtain ⟨⟨f', t⟩, br'⟩ := r
    obtain ⟨rest, _, -, ⟨cells, rfl, hbytes, hmarked⟩, -⟩ := hblocks
    cases hrun
    have hall : chunk.bytes.length + t.bytes.length < 2 ^ 32 := by
      rw [← List.length_append]
      exact hsize
    have hcells : t.bytes.length = cells.length := by rw [hbytes, List.length_map]
    have hctx := hmarked (by omega)
    have hlen := hrep.length_eq
    have hsize0 : 0 + cells.length ≤ 2 ^ 32 := by omega
    refine ⟨t.bytes, rfl, ?_⟩
    have hplain := h.plain t.bytes (by omega)
    rw [Nat.mod_eq_of_lt (show chunk.bytes.length < 2 ^ 32 by omega)]
    have htable := hplain.table t.ctx.markers chunk.bytes.length (by omega)
      (by rw [hctx.markers_eq]; exact pairwise_marks (nearMarkers_of_length hsize0)) ?_
    · have hend : (origin ++ t.bytes.map UInt8.toNat).length =
          (chunk.bytes ++ t.bytes).length := by
        rw [List.length_append, List.length_append, List.length_map, hlen]
      rw [hend] at htable
      exact htable
    · intro m hm
      rw [hctx.markers_eq] at hm
      have hoff := prefixOffset_marks 0 cells m hm
      obtain ⟨i, hi, hzero⟩ := (map_narrow_spec hsize0).1 m hm
      rw [hi, Nat.zero_add, List.getElem?_append_right (by omega), Nat.add_sub_cancel_left, hbytes]
      exact ⟨hzero, by omega⟩

end Until

/-- Whatever the producers append in whatever order, the chunk represents it, with the table of a
decode among the producers. Both scans of a window record the same markers, those of a plain scan
from left to right. Resolution fills the markers in place and leaves all other bytes alone. -/
theorem built_represents {chunk : SpeculativeChunk} {origin : List ℕ} {since : ℕ}
    (h : Built chunk origin since) :
    Represents chunk origin ∧
    (∀ cells, chunk.extractFromU16Sse2 cells = chunk.extractFromU16 cells ∧
      chunk.extractFromU16 cells =
        ⟨chunk.bytes ++ cells.map narrow, chunk.markers ++ marks chunk.bytes.length cells⟩) ∧
    (∀ tail, ResolvedBy tail chunk (resolveMarkersMut chunk tail)) ∧
    ∀ input startBit endBitHint e f chunk',
      decodeUntil input startBit endBitHint chunk = .ok ((e, f), chunk') →
      chunk'.bytes.length < 2 ^ 32 → ∃ data : List UInt8, chunk'.bytes = chunk.bytes ++ data ∧
        Built chunk' (origin ++ data.map UInt8.toNat) chunk'.bytes.length := by
  obtain ⟨hrep, -⟩ := h.represents
  refine ⟨hrep, fun cells => ?_, hrep.resolved, ?_⟩
  · exact ⟨chunk.extractFromU16Sse2_eq cells, extractFromU16_eq chunk cells⟩
  · intro input startBit endBitHint e f chunk' hrun hsize
    exact h.decodeUntil hrun hsize

/-- A chunk of bytes and markers in turn. -/
theorem built_represents_mixed :
    Represents ⟨[65, 0, 66, 0], [⟨1, 2⟩, ⟨3, 5⟩]⟩ [65, 0x8002, 66, 0] :=
  (built_represents (.table [⟨1, 5⟩] 2
    (.plain [66, 0] (.window [65, 0x8002] .new (by decide)) (by decide)) (by decide) (by simp)
    (by decide))).1

end RustyRapidgzip
