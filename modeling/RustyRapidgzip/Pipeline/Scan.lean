import RustyRapidgzip.Deflate.Resident
import RustyRapidgzip.Lib.Records
import RustyRapidgzip.Lib.Scatter
import RustyRapidgzip.Pipeline.ChunkSize
import RustyRapidgzip.Pipeline.Parallel

/-!
# The boundary scan

The parallel member decoder looks for a dynamic block from each multiple of the chunk size on.
The searches are dealt out to scoped threads. The blocks that they find, as far as each one lies
behind those before it, are the boundaries between the work items.
-/

namespace RustyRapidgzip

open BlockFinder Records

namespace Pipeline

/-- The search from a target to the end of the body. -/
def searchBlock (body : List UInt8) (target : ℕ) : Option ℕ :=
  findNextDynamicBlock body target (body.length * 8 % 2 ^ 64)

/-- `if b > *boundaries.last()`, push it. -/
def pushBoundary (boundaries : List ℕ) (b : ℕ) : Option (List ℕ) :=
  boundaries.getLast?.map fun last => if last < b then boundaries ++ [b] else boundaries

/-- The boundaries that the searches from the targets find; none of it if an index is out of
range. -/
def findBoundaries (find : ℕ → Option ℕ) (numThreads : ℕ) (targets : List ℕ) :
    Option (List ℕ) :=
  if targets = [] then some [0]
  else do
    let n := max (min numThreads targets.length) 1
    let found ← Scatter.scatter none find targets n
    (found.filterMap id).foldlM pushBoundary [0]

/-- The scan of a body ends with these boundaries. The loop over its targets has no bound of its
own. -/
def Scans (chunkSizeBytes numThreads : ℕ) (body : List UInt8) (boundaries : List ℕ) : Prop :=
  ∃ rounds targets, searchTargets chunkSizeBytes body rounds = .ok targets ∧
    findBoundaries (searchBlock body) numThreads targets = some boundaries

/-! ## The boundaries -/

/-- Pushing what was found, in order, leaves the records. -/
theorem foldlM_pushBoundary {before found : List ℕ} {last : ℕ} :
    found.foldlM pushBoundary (before ++ [last]) =
      some (before ++ last :: records last found) := by
  induction found generalizing before last with
  | nil => rfl
  | cons b found ih =>
    have hpush : pushBoundary (before ++ [last]) b =
        some (if last < b then before ++ [last] ++ [b] else before ++ [last]) := by
      rw [pushBoundary, List.getLast?_concat, Option.map_some]
    rw [List.foldlM_cons, hpush, records]
    split
    · simpa using @ih (before ++ [last]) b
    · exact ih

/-- The number of threads does not matter: the boundaries are the records of what the searches
find in the order of their targets. -/
theorem findBoundaries_eq (find : ℕ → Option ℕ) (numThreads : ℕ) (targets : List ℕ) :
    findBoundaries find numThreads targets = some (0 :: records 0 (targets.filterMap find)) := by
  unfold findBoundaries
  split
  case isTrue hempty =>
    rw [hempty]
    rfl
  case isFalse _ =>
    have hscatter := Scatter.scatter_eq none find targets
      (Nat.lt_of_lt_of_le Nat.one_pos (Nat.le_max_right (min numThreads targets.length) 1))
    simp only [hscatter, Option.bind_eq_bind, Option.bind_some, List.filterMap_map]
    exact @foldlM_pushBoundary [] (targets.filterMap find) 0

/-- Where the arithmetic of the targets is exact, the scan ends, and its boundaries are the records
of what is found from the multiples of the chunk size on. -/
theorem scans_iff {chunkSizeBytes numThreads : ℕ} {body : List UInt8} {boundaries : List ℕ}
    (hfit : TargetsFit chunkSizeBytes body) :
    Scans chunkSizeBytes numThreads body boundaries ↔ boundaries = 0 :: records 0
      ((multiplesBelow (8 * chunkTarget chunkSizeBytes) (8 * body.length)).filterMap
        (searchBlock body)) := by
  obtain ⟨rounds, htargets⟩ := targetsExact_of_fit hfit
  constructor
  · rintro ⟨rounds', targets, htargets', hfound⟩
    rw [Loop.iterate_unique htargets' htargets, findBoundaries_eq, Option.some.injEq] at hfound
    exact hfound.symm
  · rintro rfl
    exact ⟨rounds, _, htargets, findBoundaries_eq _ _ _⟩

/-! ## What the boundaries are -/

/-- The targets of a body. -/
abbrev targetsOf (chunkSizeBytes : ℕ) (body : List UInt8) : List ℕ :=
  multiplesBelow (8 * chunkTarget chunkSizeBytes) (8 * body.length)

/-- The boundaries of a body: its start, and verified headers of blocks in increasing order. Each
target from which a block was found has a boundary behind it, and where no first block is hidden
from the search, the first block behind each target is a boundary. -/
structure Boundaries (chunkSizeBytes : ℕ) (body : List UInt8) (boundaries : List ℕ) : Prop where
  head : boundaries.head? = some 0
  sorted : boundaries.Pairwise (· < ·)
  block : ∀ b ∈ boundaries, b ≠ 0 →
    ∃ t ∈ targetsOf chunkSizeBytes body, Block body t (8 * body.length) b
  reached : ∀ t ∈ targetsOf chunkSizeBytes body, ∀ b, searchBlock body t = some b →
    ∃ b' ∈ boundaries, b ≤ b'
  first : (∀ t ∈ targetsOf chunkSizeBytes body, ∀ p,
      IsLeast {p | Block body t (8 * body.length) p} p → ¬Hidden body t p) →
    ∀ t ∈ targetsOf chunkSizeBytes body, ∀ p,
      IsLeast {p | Block body t (8 * body.length) p} p → p ∈ boundaries

section Boundaries

variable {chunkSizeBytes numThreads t b : ℕ} {body : List UInt8} {boundaries : List ℕ}

/-- The targets are in order. -/
theorem pairwise_multiplesBelow (step bound : ℕ) :
    (multiplesBelow step bound).Pairwise (· ≤ ·) := by
  refine List.Pairwise.map _ (fun i j hij => ?_) List.pairwise_lt_range
  exact Nat.mul_le_mul_right step (Nat.succ_le_succ (Nat.le_of_lt hij))

/-- A body with a target has bit positions that fit. -/
theorem searchBlock_eq (hfit : TargetsFit chunkSizeBytes body)
    (ht : t ∈ targetsOf chunkSizeBytes body) :
    searchBlock body t = findNextDynamicBlock body t (8 * body.length) := by
  have hpos := chunkTarget_pos chunkSizeBytes
  obtain ⟨hpos', hlt, hdvd⟩ := (mem_multiplesBelow (by omega)).mp ht
  have hle := Nat.le_of_dvd hpos' hdvd
  have hlength : body.length < 2 ^ 61 := by
    rcases hfit with ⟨hshort, -⟩ | ⟨-, hlength, -⟩
    · omega
    · exact hlength
  rw [searchBlock, Nat.mod_eq_of_lt (by omega), Nat.mul_comm]

/-- What is found from a target on is a block behind it. -/
theorem block_of_searchBlock (hfit : TargetsFit chunkSizeBytes body)
    (ht : t ∈ targetsOf chunkSizeBytes body) (h : searchBlock body t = some b) :
    Block body t (8 * body.length) b := by
  rw [searchBlock_eq hfit ht] at h
  rcases findNextDynamicBlock_cases body t (8 * body.length) with ⟨n, hn, hblock, -⟩ | ⟨hnone, -⟩
  · rw [hn] at h
    cases h
    exact hblock
  · rw [hnone] at h
    cases h

/-- A first block that is not hidden is found. -/
theorem findNextDynamicBlock_of_least {data : List UInt8} {fromBit untilBit p : ℕ}
    (hleast : IsLeast {p | Block data fromBit untilBit p} p) (hseen : ¬Hidden data fromBit p) :
    findNextDynamicBlock data fromBit untilBit = some p := by
  obtain ⟨m, rfl⟩ : ∃ m, (nextPos data)^[m] fromBit = p := by
    by_contra hnot
    exact hseen ((hidden_iff hleast.1.from_le hleast.1.candidate).mpr fun m hm => hnot ⟨m, hm⟩)
  rcases findNextDynamicBlock_cases data fromBit untilBit with
    ⟨n, hfound, hblock, hfirst⟩ | ⟨-, hnone⟩
  · rw [hfound]
    congr 1
    rcases Nat.lt_or_ge m n with hlt | hge
    · exact absurd hleast.1 (hfirst m hlt)
    · exact Nat.le_antisymm ((strictMono_positions data fromBit).monotone hge) (hleast.2 hblock)
  · exact absurd hleast.1 (hnone m)

/-- Where no first block is hidden, a search from a later target does not find an earlier block. -/
theorem pairwise_found (hfit : TargetsFit chunkSizeBytes body)
    (hseen : ∀ t ∈ targetsOf chunkSizeBytes body, ∀ p,
      IsLeast {p | Block body t (8 * body.length) p} p → ¬Hidden body t p) :
    ((targetsOf chunkSizeBytes body).filterMap (searchBlock body)).Pairwise (· ≤ ·) := by
  rw [List.pairwise_filterMap]
  refine (pairwise_multiplesBelow _ _).imp_of_mem fun {t t'} ht ht' hle b hb b' hb' => ?_
  have hblock' := block_of_searchBlock hfit ht' hb'
  have hbehind : Block body t (8 * body.length) b' :=
    { hblock' with from_le := hle.trans hblock'.from_le }
  classical
  have hexists : ∃ p, Block body t (8 * body.length) p := ⟨b', hbehind⟩
  have hleast : IsLeast {p | Block body t (8 * body.length) p} (Nat.find hexists) :=
    ⟨Nat.find_spec hexists, fun _ hp => Nat.find_min' hexists hp⟩
  have hfound := findNextDynamicBlock_of_least hleast (hseen t ht _ hleast)
  rw [← searchBlock_eq hfit ht, hb, Option.some.injEq] at hfound
  rw [hfound]
  exact hleast.2 hbehind

/-- What a scan ends with are the boundaries of the body. -/
theorem boundaries_of_scans (hfit : TargetsFit chunkSizeBytes body)
    (h : Scans chunkSizeBytes numThreads body boundaries) :
    Boundaries chunkSizeBytes body boundaries := by
  rw [scans_iff hfit] at h
  subst h
  refine ⟨rfl, pairwise_records, ?_, ?_, ?_⟩
  · intro b hb hne
    have hfound := mem_of_mem_records ((List.mem_cons.mp hb).resolve_left hne)
    obtain ⟨t, ht, hsearch⟩ := List.mem_filterMap.mp hfound
    exact ⟨t, ht, block_of_searchBlock hfit ht hsearch⟩
  · intro t ht b hsearch
    exact exists_le_records (List.mem_filterMap.mpr ⟨t, ht, hsearch⟩)
  · intro hseen t ht p hleast
    have hsearch : searchBlock body t = some p := by
      rw [searchBlock_eq hfit ht]
      exact findNextDynamicBlock_of_least hleast (hseen t ht p hleast)
    have hpos : 0 < p := by
      have hchunk := chunkTarget_pos chunkSizeBytes
      have htarget := ((mem_multiplesBelow (by omega)).mp ht).1
      have := hleast.1.from_le
      omega
    refine List.mem_cons_of_mem _ ((mem_records_of_pairwise ?_ hpos).mpr
      (List.mem_filterMap.mpr ⟨t, ht, hsearch⟩))
    exact List.pairwise_cons.mpr ⟨fun _ _ => Nat.zero_le _, pairwise_found hfit hseen⟩

end Boundaries

/-! ## The work items -/

section Items

variable {bit : ℕ} {body : List UInt8} {boundaries : List ℕ} {item : WorkItem}

/-- An item lies between two boundaries. -/
theorem mem_workItems : item ∈ workItems body boundaries ↔ ∃ i, ∃ hi : i < boundaries.length,
    item = ⟨i, boundaries[i], boundaries.getD (i + 1) (noHint body)⟩ := by
  rw [workItems, List.mem_mapIdx]
  exact exists₂_congr fun _ _ => eq_comm

/-- Every bit of the body lies before the hint of the last item. -/
theorem lt_noHint (hbit : bit < 8 * body.length) : bit < noHint body := by
  unfold noHint
  omega

/-- A bit lies in the item of the last boundary that is not behind it. -/
theorem exists_item (hhead : boundaries.head? = some 0) (hbit : bit < 8 * body.length) :
    ∃ item ∈ workItems body boundaries, item.startBit ≤ bit ∧ bit < item.endBitHint := by
  have hstart : boundaries.getD 0 (noHint body) ≤ bit := by
    rw [List.getD_eq_getElem?_getD, ← List.head?_eq_getElem?, hhead]
    exact Nat.zero_le bit
  obtain ⟨i, hspec, hlast⟩ : ∃ i, boundaries.getD i (noHint body) ≤ bit ∧
      ∀ k, i < k → k ≤ boundaries.length → ¬boundaries.getD k (noHint body) ≤ bit :=
    ⟨Nat.findGreatest (fun i => boundaries.getD i (noHint body) ≤ bit) boundaries.length,
      Nat.findGreatest_spec (P := fun i => boundaries.getD i (noHint body) ≤ bit) (Nat.zero_le _)
        hstart, fun _ => Nat.findGreatest_is_greatest⟩
  have hi : i < boundaries.length := by
    by_contra hge
    rw [List.getD_eq_default _ _ (Nat.le_of_not_lt hge)] at hspec
    exact absurd (lt_noHint hbit) (Nat.not_lt.mpr hspec)
  refine ⟨_, mem_workItems.mpr ⟨i, hi, rfl⟩, ?_, ?_⟩
  · rwa [List.getD_eq_getElem _ _ hi] at hspec
  · exact Nat.lt_of_not_le (hlast (i + 1) (Nat.lt_succ_self i) hi)

/-- Of two items the first one ends where the second one starts, or before. -/
theorem hint_le_start (hsorted : boundaries.Pairwise (· < ·)) {i j : ℕ} (hij : i < j)
    (hj : j < boundaries.length) : boundaries.getD (i + 1) (noHint body) ≤ boundaries[j] := by
  have hi : i + 1 < boundaries.length := by omega
  rw [List.getD_eq_getElem _ _ hi]
  rcases Nat.eq_or_lt_of_le (Nat.succ_le_of_lt hij) with heq | hlt
  · exact le_of_eq (by congr 1)
  · exact (List.pairwise_iff_getElem.mp hsorted _ _ hi hj hlt).le

/-- Each bit of the body lies in one work item. -/
theorem existsUnique_item (hhead : boundaries.head? = some 0)
    (hsorted : boundaries.Pairwise (· < ·)) (hbit : bit < 8 * body.length) :
    ∃! item, item ∈ workItems body boundaries ∧ item.startBit ≤ bit ∧ bit < item.endBitHint := by
  obtain ⟨item, hmem, hstart, hend⟩ := exists_item hhead hbit
  refine ⟨item, ⟨hmem, hstart, hend⟩, ?_⟩
  rintro item' ⟨hmem', hstart', hend'⟩
  obtain ⟨i, hi, rfl⟩ := mem_workItems.mp hmem
  obtain ⟨j, hj, rfl⟩ := mem_workItems.mp hmem'
  simp only at hstart hend hstart' hend'
  rcases Nat.lt_trichotomy i j with hlt | rfl | hgt
  · have := @hint_le_start body _ hsorted i j hlt hj
    omega
  · rfl
  · have := @hint_le_start body _ hsorted j i hgt hi
    omega

end Items

/-- Whatever the number of threads, the scan of a body ends with one list of boundaries: the start
of the body and verified blocks, in increasing order, with the first block behind each target
where none is hidden. The items between them share out the bits of the body. -/
theorem scan_shares_body {chunkSizeBytes : ℕ} {body : List UInt8}
    (hfit : TargetsFit chunkSizeBytes body) :
    ∃ boundaries, (∀ numThreads boundaries',
        Scans chunkSizeBytes numThreads body boundaries' ↔ boundaries' = boundaries) ∧
      Boundaries chunkSizeBytes body boundaries ∧
      ∀ bit < 8 * body.length,
        ∃! item, item ∈ workItems body boundaries ∧ item.startBit ≤ bit ∧
          bit < item.endBitHint := by
  have hboundaries := boundaries_of_scans hfit ((@scans_iff chunkSizeBytes 0 body _ hfit).mpr rfl)
  refine ⟨_, fun _ _ => scans_iff hfit, hboundaries, fun bit hbit => ?_⟩
  exact existsUnique_item hboundaries.head hboundaries.sorted hbit

/-- With chunks of the least size the search from the only target finds the block there, and the
body is shared out between two items. -/
theorem scan_shares_body_blockBehindChunk :
    (∀ numThreads boundaries', Scans 0 numThreads blockBehindChunk boundaries' ↔
      boundaries' = [0, 524288]) ∧
    Boundaries 0 blockBehindChunk [0, 524288] ∧
    ∀ bit < 524416, ∃! item, item ∈ workItems blockBehindChunk [0, 524288] ∧
      item.startBit ≤ bit ∧ bit < item.endBitHint := by
  have hfit : TargetsFit 0 blockBehindChunk := by
    rw [TargetsFit, length_blockBehindChunk]
    decide
  have htargets : targetsOf 0 blockBehindChunk = [524288] := by
    rw [targetsOf, length_blockBehindChunk]
    decide
  have hsearch : searchBlock blockBehindChunk 524288 = some 524288 := by
    rw [searchBlock, length_blockBehindChunk]
    exact findNextDynamicBlock_blockBehindChunk
  obtain ⟨boundaries, hscans, hboundaries, hshares⟩ := scan_shares_body hfit
  obtain rfl : [0, 524288] = boundaries := by
    refine (hscans 1 _).mp ((scans_iff hfit).mpr ?_)
    rw [← targetsOf, htargets, List.filterMap_cons_some hsearch]
    rfl
  rw [length_blockBehindChunk] at hshares
  exact ⟨hscans, hboundaries, hshares⟩

end Pipeline

end RustyRapidgzip
