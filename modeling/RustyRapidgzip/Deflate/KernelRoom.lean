import RustyRapidgzip.Deflate.PreloadRoom
import RustyRapidgzip.Deflate.SideTable
import RustyRapidgzip.Lib.Traced

/-!
# Room in the output of the byte kernels

The fast kernel and the serial one write through a raw pointer and keep the vector's capacity in a
local of their own. Here the vector's capacity, that local and the cursor are explicit, the bytes
are left out, and every store is recorded with the capacity at that time. Whatever the input, the
cursor stays within the local, the local is the capacity wherever a round begins, and every store
lies in the vector.
-/

namespace RustyRapidgzip

open LsbBits Reference HuffmanDecoder Lz

namespace KernelRoom

open Preload (HEADROOM)
open PreloadRoom (Write subUsize)

/-- The capacity of the vector, what the kernel takes it to be, and the cursor. Before every
`reserve` the cursor is published as the vector's length. -/
structure Output where
  capacity : ℕ
  cap : ℕ
  cur : ℕ
  deriving DecidableEq, Repr

/-- A computation that records its stores. -/
abbrev Kernel : Type → Type := Traced Write DeflateError

/-- Reserve, and ask for the capacity again. -/
def Output.reserve (grow : Reserve) (additional : ℕ) (o : Output) : Output :=
  let capacity := grow.reserve o.capacity o.cur additional
  { o with capacity := capacity, cap := capacity }

/-- `while pos < stop`, store `n` bytes. -/
def storeRun (capacity n stop : ℕ) : ℕ → ℕ → List Write
  | 0, _ => []
  | rounds + 1, pos =>
    if pos < stop then ⟨pos, n, capacity⟩ :: storeRun capacity n stop rounds (pos + n) else []

/-- Store words while there are eight bytes, then bytes. -/
def broadcastStores (capacity cur length : ℕ) : List Write :=
  let words := cur + 8 * (length / 8)
  storeRun capacity 8 words length cur ++ storeRun capacity 1 (cur + length) length words

/-- The stores of the fast kernel's copy: chunks up to its end or beyond, words and bytes of one
value, or single bytes. -/
def copyBackRawStores (capacity copyN cur distance length : ℕ) : List Write :=
  if length ≤ distance then
    ⟨cur, copyN, capacity⟩ :: storeRun capacity copyN (cur + length) length (cur + copyN)
  else if distance = 1 then broadcastStores capacity cur length
  else storeRun capacity 1 (cur + length) length cur

/-- The stores of the serial kernel's copy: words and the last word again, words and bytes of one
value, or single bytes. -/
def copyBackStores (capacity cur distance length : ℕ) : List Write :=
  if length ≤ distance then
    if 8 ≤ length then
      storeRun capacity 8 (cur + 8 * (length / 8)) length cur ++
        if 0 < length % 8 then [⟨cur + length - 8, 8, capacity⟩] else []
    else storeRun capacity 1 (cur + length) length cur
  else if distance = 1 then broadcastStores capacity cur length
  else storeRun capacity 1 (cur + length) length cur

/-- Make room after a copy. -/
def Output.headroom (grow : Reserve) (o : Output) : Output :=
  if subUsize o.cap o.cur < HEADROOM then o.reserve grow HEADROOM else o

/-- The fast kernel's copy within the output. -/
def copyWithin (grow : Reserve) (copyN : ℕ) (o : Output) (distance length : ℕ) :
    Kernel Output := do
  let o := if subUsize o.cap o.cur < length + copyN then o.reserve grow (length + HEADROOM) else o
  Traced.tellAll (copyBackRawStores o.capacity copyN o.cur distance length)
  pure ({ o with cur := o.cur + length }.headroom grow)

/-- Check a distance and copy. -/
def resolve (grow : Reserve) (copyN : ℕ) (o : Output) (distance length : ℕ) : Kernel Output :=
  if distance = 0 then Traced.fail (.invalid "zero back-reference distance")
  else if o.cur < distance then Traced.fail (.invalid "back-reference distance out of bounds")
  else copyWithin grow copyN o distance length

/-- Resolve a copy that may reach before the chunk: zero bytes, then a copy. -/
def resolveSpeculative (grow : Reserve) (copyN chunkBase : ℕ) (o : Output)
    (distance length : ℕ) : Kernel Output :=
  let emitted := o.cur - chunkBase
  if emitted < distance then do
    let prefixCount := min (distance - emitted) length
    let o := if subUsize o.capacity o.cur < length then o.reserve grow length else o
    Traced.tell ⟨o.cur, prefixCount, o.capacity⟩
    let o := { o with cur := o.cur + prefixCount }
    let inBufferCount := length - prefixCount
    if 0 < inBufferCount then copyWithin grow copyN o distance inBufferCount else pure o
  else if distance = 0 then Traced.fail (.invalid "zero back-reference distance")
  else copyWithin grow copyN o distance length

/-- The serial kernel's copy reserves by itself, so the kernel asks for the capacity again. -/
def resolveSerial (grow : Reserve) (o : Output) (distance length : ℕ) : Kernel Output :=
  if distance = 0 ∨ o.cur < distance then
    Traced.fail (.invalid "back-reference distance out of bounds")
  else if MAX_DISTANCE < distance then Traced.fail (.invalid "distance > 32 KiB")
  else do
    let o := { o with capacity := grow.reserve o.capacity o.cur length }
    Traced.tellAll (copyBackStores o.capacity o.cur distance length)
    let o := { o with cur := o.cur + length }
    pure ({ o with cap := o.capacity }.headroom grow)

/-- Store one literal. -/
def pushLiteral (grow : Reserve) (o : Output) : Kernel Output := do
  let o := if o.cur = o.cap then o.reserve grow HEADROOM else o
  Traced.tell ⟨o.cur, 1, o.capacity⟩
  pure { o with cur := o.cur + 1 }

/-- Store two literals. -/
def pushLiterals (grow : Reserve) (o : Output) : Kernel Output := do
  let o := if o.cap < o.cur + 2 then o.reserve grow HEADROOM else o
  Traced.tellAll [⟨o.cur, 1, o.capacity⟩, ⟨o.cur + 1, 1, o.capacity⟩]
  pure { o with cur := o.cur + 2 }

/-- A round, which goes on or ends the block. -/
abbrev Round : Type := Kernel ((Output × BitReader) ⊕ (Output × BitReader))

/-- Act on an entry that is no literal. -/
def symbolTail (resolve : Output → ℕ → ℕ → Kernel Output) (dist : HuffmanDecoder) (entry : ℕ)
    (o : Output) (br : BitReader) : Round :=
  if entry &&& HUFFDEC_EXCEPTIONAL ≠ 0 then
    if entry >>> 16 = 0 then pure (.inr (o, br))
    else Traced.fail (.invalid "literal/length symbol out of range")
  else do
    let (length, br) := lengthOf entry br
    let (distance, br) ← Traced.lift (distanceOf dist br)
    let o ← resolve o distance length
    pure (.inl (o, br))

/-- One round of the fast kernel. -/
def fastRound (grow : Reserve) (resolve : Output → ℕ → ℕ → Kernel Output)
    (lit dist : HuffmanDecoder) (s : Output × BitReader) : Round := do
  let br ← Traced.lift s.2.refillKernel
  let (entry, br) ← Traced.lift (lit.lookupFilled br)
  if entry &&& HUFFDEC_LITERAL ≠ 0 then
    let e2 := lit.lut (br.peekBitsUnchecked LUT_BITS)
    let len2 := e2 &&& 0xff
    if len2 ≠ 0 ∧ e2 &&& HUFFDEC_LITERAL ≠ 0 then do
      let o ← pushLiterals grow s.1
      pure (.inl (o, br.consume len2))
    else do
      let o ← pushLiteral grow s.1
      pure (.inl (o, br))
  else symbolTail resolve dist entry s.1 br

/-- One round of the serial kernel. -/
def serialRound (grow : Reserve) (lit dist : HuffmanDecoder) (s : Output × BitReader) : Round :=
  match s.2.refill 48 with
  | (false, _) => Traced.fail .unexpectedEof
  | (true, br) => do
    let (entry, br) ← Traced.lift (lit.lookupFilled br)
    if entry &&& HUFFDEC_LITERAL ≠ 0 then do
      let o ← pushLiteral grow s.1
      pure (.inl (o, br))
    else symbolTail (resolveSerial grow) dist entry s.1 br

/-- One round of `decode_compressed`, without and with an unknown history. -/
def decodeCompressed (grow : Reserve) (copyN : ℕ) : HuffmanDecoder → HuffmanDecoder →
    Output × BitReader → Round := fastRound grow (resolve grow copyN)

/-- A round of the kernel with the side table. -/
def decodeCompressedSpeculative (grow : Reserve) (copyN chunkBase : ℕ) : HuffmanDecoder →
    HuffmanDecoder → Output × BitReader → Round :=
  fastRound grow (resolveSpeculative grow copyN chunkBase)

/-- The entry of a kernel. -/
def start (grow : Reserve) (len capacity : ℕ) : Output :=
  let capacity :=
    if subUsize capacity len < HEADROOM then grow.reserve capacity len HEADROOM else capacity
  ⟨capacity, capacity, len⟩

/-- The states a run comes through. -/
def Reached (round : Output × BitReader → Round) :
    Output × BitReader → Output × BitReader → Prop :=
  Relation.ReflTransGen fun s s' => (round s).result = .ok (.inl s')

/-- The kernel knows the capacity, and the cursor is within it. -/
structure Room (o : Output) : Prop where
  cap_eq : o.cap = o.capacity
  cur_le : o.cur ≤ o.cap

/-- Wherever a round begins or the block ends there is room, and every store of the run lies in
the vector. -/
def NeverOverruns (round : Output × BitReader → Round) (s : Output × BitReader) : Prop :=
  ∀ t, Reached round s t → Room t.1 ∧ (∀ w ∈ (round t).log, w.Fits) ∧
    ∀ r, (round t).result = .ok (.inr r) → Room r.1

/-! ## Stores -/

section Stores

variable {capacity n stop cur length : ℕ}

/-- A run of stores ends less than one store behind its end. -/
theorem storeRun_spec (rounds pos : ℕ) :
    ∀ w ∈ storeRun capacity n stop rounds pos, w.cap = capacity ∧ w.pos + w.count < stop + n := by
  induction rounds generalizing pos with
  | zero => nofun
  | succ rounds ih =>
    rw [storeRun]
    by_cases hmore : pos < stop
    · rw [if_pos hmore]
      refine List.forall_mem_cons.mpr ⟨⟨rfl, ?_⟩, ih (pos + n)⟩
      simp only
      omega
    · rw [if_neg hmore]
      nofun

/-- A run that divides its range ends where the range does. -/
theorem storeRun_aligned (rounds : ℕ) {pos k : ℕ} (hstop : pos + n * k = stop) :
    ∀ w ∈ storeRun capacity n stop rounds pos, w.cap = capacity ∧ w.pos + w.count ≤ stop := by
  induction rounds generalizing pos k with
  | zero => nofun
  | succ rounds ih =>
    rw [storeRun]
    by_cases hmore : pos < stop
    · obtain ⟨k, rfl⟩ : ∃ j, k = j + 1 := by
        cases k with
        | zero => omega
        | succ j => exact ⟨j, rfl⟩
      rw [Nat.mul_succ] at hstop
      rw [if_pos hmore]
      refine List.forall_mem_cons.mpr ⟨⟨rfl, ?_⟩, ih (show pos + n + n * k = stop by omega)⟩
      simp only
      omega
    · rw [if_neg hmore]
      nofun

/-- The stores of a broadcast fit where its length does. -/
theorem broadcastStores_fits (hroom : cur + length ≤ capacity) :
    ∀ w ∈ broadcastStores capacity cur length, w.Fits := by
  refine List.forall_mem_append.mpr ⟨fun w hw => ?_, fun w hw => ?_⟩
  · obtain ⟨hcap, hle⟩ := storeRun_aligned length rfl w hw
    show w.pos + w.count ≤ w.cap
    omega
  · obtain ⟨hcap, hlt⟩ := storeRun_spec length _ w hw
    show w.pos + w.count ≤ w.cap
    omega

/-- The stores of single bytes fit where their number does. -/
theorem byteStores_fits (hroom : cur + length ≤ capacity) :
    ∀ w ∈ storeRun capacity 1 (cur + length) length cur, w.Fits := by
  intro w hw
  obtain ⟨hcap, hlt⟩ := storeRun_spec length cur w hw
  show w.pos + w.count ≤ w.cap
  omega

/-- The fast copy stays in a room with a chunk to spare. -/
theorem copyBackRawStores_fits {copyN distance : ℕ}
    (hroom : cur + length + copyN ≤ capacity) :
    ∀ w ∈ copyBackRawStores capacity copyN cur distance length, w.Fits := by
  unfold copyBackRawStores
  by_cases hslice : length ≤ distance
  · rw [if_pos hslice]
    refine List.forall_mem_cons.mpr ⟨?_, fun w hw => ?_⟩
    · show cur + copyN ≤ capacity
      omega
    · obtain ⟨hcap, hlt⟩ := storeRun_spec length _ w hw
      show w.pos + w.count ≤ w.cap
      omega
  rw [if_neg hslice]
  split
  · exact broadcastStores_fits (by omega)
  · exact byteStores_fits (by omega)

/-- The serial copy stays in a room of its length. -/
theorem copyBackStores_fits {distance : ℕ} (hroom : cur + length ≤ capacity) :
    ∀ w ∈ copyBackStores capacity cur distance length, w.Fits := by
  unfold copyBackStores
  by_cases hslice : length ≤ distance
  · rw [if_pos hslice]
    by_cases hwords : 8 ≤ length
    · rw [if_pos hwords]
      refine List.forall_mem_append.mpr ⟨fun w hw => ?_, fun w hw => ?_⟩
      · obtain ⟨hcap, hle⟩ := storeRun_aligned length rfl w hw
        show w.pos + w.count ≤ w.cap
        omega
      · split at hw
        · obtain rfl := List.mem_singleton.mp hw
          show cur + length - 8 + 8 ≤ capacity
          omega
        · cases hw
    · rw [if_neg hwords]
      exact byteStores_fits hroom
  rw [if_neg hslice]
  split
  · exact broadcastStores_fits hroom
  · exact byteStores_fits hroom

end Stores

/-! ## Rounds -/

/-- Stores must lie in the vector. -/
def inside : Monitor Unit Write := Monitor.each Write.Fits

section Rounds

variable {grow : Reserve} {copyN : ℕ} {lit dist : HuffmanDecoder} {o : Output} {g : Unit}

/-- Reserving leaves room for what was asked for. -/
theorem reserve_room (grow : Reserve) (additional : ℕ) (o : Output) :
    Room (o.reserve grow additional) ∧ (o.reserve grow additional).cur = o.cur ∧
      o.cur + additional ≤ (o.reserve grow additional).capacity := by
  have henough := grow.enough o.capacity o.cur additional
  refine ⟨⟨rfl, ?_⟩, rfl, henough⟩
  simp only [Output.reserve]
  omega

/-- Making headroom leaves room. -/
theorem Room.headroom (h : Room o) : Room (o.headroom grow) := by
  unfold Output.headroom
  split
  · exact (reserve_room grow HEADROOM o).1
  · exact h

/-- A check of the room that is left makes what it asks for. -/
theorem Room.ensure (h : Room o) {need additional : ℕ} (hle : need ≤ additional) {o' : Output}
    (ho' : (if subUsize o.cap o.cur < need then o.reserve grow additional else o) = o') :
    Room o' ∧ o'.cur = o.cur ∧ o.cur + need ≤ o'.capacity := by
  have hcap := h.cap_eq
  have hcur := h.cur_le
  rw [subUsize, if_pos hcur] at ho'
  split at ho'
  · obtain ⟨hroom, hsame, henough⟩ := reserve_room grow additional o
    subst ho'
    exact ⟨hroom, hsame, by omega⟩
  · subst ho'
    exact ⟨h, rfl, by omega⟩

/-- Stores that fit are inside of the vector. -/
theorem ensures_stores {stores : List Write} {Q : Unit → Unit → Prop}
    (hfits : ∀ w ∈ stores, w.Fits) (h : Q () ()) :
    inside.Ensures g (Traced.tellAll stores : Kernel Unit) Q :=
  .tellAll ((Monitor.accepts_each _ _ _).mpr hfits) h

/-- What a step of a kernel keeps. -/
abbrev Keeps (x : Kernel Output) : Prop := inside.Ensures () x fun o _ => Room o

/-- A copy with its overshoot fits behind a cursor with headroom. -/
theorem keeps_copyWithin (hn : copyN ≤ HEADROOM) (h : Room o)
    (distance length : ℕ) : Keeps (copyWithin grow copyN o distance length) := by
  unfold copyWithin
  obtain ⟨o', ho'⟩ : ∃ o', (if subUsize o.cap o.cur < length + copyN then
      o.reserve grow (length + HEADROOM) else o) = o' := ⟨_, rfl⟩
  obtain ⟨hroom, hcur, hspare⟩ := h.ensure (by omega) ho'
  simp only [ho']
  refine .bind (ensures_stores (copyBackRawStores_fits (by omega)) trivial)
    fun _ _ (_ : True) => .pure ?_
  have hcap := hroom.cap_eq
  exact Room.headroom ⟨hcap, by simp only; omega⟩

/-- A match stays inside of the vector. -/
theorem keeps_resolve (hn : copyN ≤ HEADROOM) (h : Room o)
    (distance length : ℕ) : Keeps (resolve grow copyN o distance length) := by
  unfold resolve
  split
  · exact .fail _
  split
  · exact .fail _
  · exact keeps_copyWithin hn h distance length

/-- A match with the side table stays inside of the vector. -/
theorem keeps_resolveSpeculative (hn : copyN ≤ HEADROOM) (h : Room o)
    (chunkBase distance length : ℕ) :
    Keeps (resolveSpeculative grow copyN chunkBase o distance length) := by
  unfold resolveSpeculative
  simp only
  split
  · obtain ⟨count, hcount⟩ : ∃ count, min (distance - (o.cur - chunkBase)) length = count :=
      ⟨_, rfl⟩
    obtain ⟨o', ho'⟩ : ∃ o', (if subUsize o.capacity o.cur < length then
        o.reserve grow length else o) = o' := ⟨_, rfl⟩
    obtain ⟨hroom, hcur, hspare⟩ := h.ensure le_rfl (h.cap_eq ▸ ho')
    simp only [hcount, ho']
    have hcap := hroom.cap_eq
    have hzeros : (⟨o'.cur, count, o'.capacity⟩ : Write).Fits := by
      show o'.cur + count ≤ o'.capacity
      omega
    refine .bind (.tell hzeros trivial) fun _ _ (_ : True) => ?_
    have hroom' : Room { o' with cur := o'.cur + count } := ⟨hcap, by simp only; omega⟩
    split
    · exact keeps_copyWithin hn hroom' distance _
    · exact .pure hroom'
  split
  · exact .fail _
  · exact keeps_copyWithin hn h distance length

/-- A match of the serial kernel stays inside of the vector. -/
theorem keeps_resolveSerial (o : Output) (distance length : ℕ) :
    Keeps (resolveSerial grow o distance length) := by
  unfold resolveSerial
  split
  · exact .fail _
  split
  · exact .fail _
  have henough := grow.enough o.capacity o.cur length
  refine .bind (ensures_stores (copyBackStores_fits henough) trivial)
    fun _ _ (_ : True) => .pure ?_
  exact Room.headroom ⟨rfl, henough⟩

/-- A literal stays inside of the vector. -/
theorem keeps_pushLiteral (h : Room o) : Keeps (pushLiteral grow o) := by
  have hcap := h.cap_eq
  have hcur := h.cur_le
  have hheadroom : HEADROOM = 4096 := rfl
  unfold pushLiteral
  obtain ⟨o', ho'⟩ : ∃ o', (if o.cur = o.cap then o.reserve grow HEADROOM else o) = o' := ⟨_, rfl⟩
  have hroom : Room o' ∧ o'.cur + 1 ≤ o'.capacity := by
    split at ho'
    · obtain ⟨hroom, hsame, henough⟩ := reserve_room grow HEADROOM o
      subst ho'
      exact ⟨hroom, by omega⟩
    · subst ho'
      exact ⟨h, by omega⟩
  simp only [ho']
  refine .bind (.tell hroom.2 trivial) fun _ _ (_ : True) => .pure ⟨hroom.1.cap_eq, ?_⟩
  have hcap' := hroom.1.cap_eq
  simp only
  omega

/-- Two literals stay inside of the vector. -/
theorem keeps_pushLiterals (h : Room o) : Keeps (pushLiterals grow o) := by
  have hcap := h.cap_eq
  have hcur := h.cur_le
  have hheadroom : HEADROOM = 4096 := rfl
  unfold pushLiterals
  obtain ⟨o', ho'⟩ : ∃ o', (if o.cap < o.cur + 2 then o.reserve grow HEADROOM else o) = o' :=
    ⟨_, rfl⟩
  have hroom : Room o' ∧ o'.cur + 2 ≤ o'.capacity := by
    split at ho'
    · obtain ⟨hroom, hsame, henough⟩ := reserve_room grow HEADROOM o
      subst ho'
      exact ⟨hroom, by omega⟩
    · subst ho'
      exact ⟨h, by omega⟩
  have hcap' := hroom.1.cap_eq
  have hfits : ∀ w ∈ [(⟨o'.cur, 1, o'.capacity⟩ : Write), ⟨o'.cur + 1, 1, o'.capacity⟩],
      w.Fits := by
    simp only [List.forall_mem_cons, Write.Fits]
    refine ⟨by omega, by omega, nofun⟩
  simp only [ho']
  refine .bind (ensures_stores hfits trivial) fun _ _ (_ : True) => .pure ⟨hcap', ?_⟩
  simp only
  omega

/-- What a round keeps. -/
abbrev KeepsRound (r : Round) : Prop :=
  inside.Ensures () r fun r _ => Sum.elim (fun s => Room s.1) (fun s => Room s.1) r

/-- What follows a symbol that is no literal keeps the room. -/
theorem keeps_symbolTail {resolve : Output → ℕ → ℕ → Kernel Output}
    (hresolve : ∀ distance length, Keeps (resolve o distance length)) (h : Room o) (entry : ℕ)
    (br : BitReader) : KeepsRound (symbolTail resolve dist entry o br) := by
  unfold symbolTail
  split
  · split
    · exact .pure h
    · exact .fail _
  · refine .bind (.lift fun _ _ => trivial) fun r _ (_ : True) => ?_
    exact .bind (hresolve r.1 _) fun o' _ ho' => .pure ho'

/-- A round of a fast kernel keeps the room. -/
theorem keeps_fastRound {resolve : Output → ℕ → ℕ → Kernel Output}
    (hresolve : ∀ distance length, Keeps (resolve o distance length)) (h : Room o)
    (lit dist : HuffmanDecoder) (br : BitReader) :
    KeepsRound (fastRound grow resolve lit dist (o, br)) := by
  unfold fastRound
  refine .bind (.lift fun _ _ => trivial) fun br _ (_ : True) => ?_
  refine .bind (.lift fun _ _ => trivial) fun r _ (_ : True) => ?_
  obtain ⟨entry, br⟩ := r
  simp only
  split
  · split
    · exact .bind (keeps_pushLiterals h) fun o' _ ho' => .pure ho'
    · exact .bind (keeps_pushLiteral h) fun o' _ ho' => .pure ho'
  · exact keeps_symbolTail hresolve h entry br

/-- A round of the serial kernel keeps the room. -/
theorem keeps_serialRound (h : Room o) (lit dist : HuffmanDecoder) (br : BitReader) :
    KeepsRound (serialRound grow lit dist (o, br)) := by
  unfold serialRound
  split
  · exact .fail _
  · refine .bind (.lift fun _ _ => trivial) fun r _ (_ : True) => ?_
    obtain ⟨entry, br⟩ := r
    simp only
    split
    · exact .bind (keeps_pushLiteral h) fun o' _ ho' => .pure ho'
    · exact keeps_symbolTail (fun distance length => keeps_resolveSerial o distance length) h
        entry br

/-- The entry of a kernel has its headroom. -/
theorem room_start {len capacity : ℕ} (hle : len ≤ capacity) : Room (start grow len capacity) := by
  have henough := grow.enough capacity len HEADROOM
  refine ⟨rfl, ?_⟩
  simp only [start]
  split <;> omega

/-- A kernel whose rounds keep the room never leaves it. -/
theorem neverOverruns_of_keeps {round : Output × BitReader → Round}
    (hround : ∀ o br, Room o → KeepsRound (round (o, br))) {s : Output × BitReader}
    (hs : Room s.1) : NeverOverruns round s := by
  intro t ht
  have hroom : Room t.1 := by
    induction ht with
    | refl => exact hs
    | tail _ hstep ih => exact (hround _ _ ih).2 _ hstep
  obtain ⟨haccepts, hnext⟩ := hround t.1 t.2 hroom
  exact ⟨hroom, (Monitor.accepts_each _ _ _).mp haccepts, fun r hr => hnext _ hr⟩

end Rounds

/-- The fast kernel never leaves its room, whatever it decodes. -/
theorem neverOverruns_decodeCompressed (grow : Reserve) {copyN : ℕ} (hn : copyN ≤ HEADROOM)
    (lit dist : HuffmanDecoder) (br : BitReader) {len capacity : ℕ} (hle : len ≤ capacity) :
    NeverOverruns (decodeCompressed grow copyN lit dist) (start grow len capacity, br) := by
  apply neverOverruns_of_keeps
  · intro o br hroom
    exact keeps_fastRound (keeps_resolve hn hroom) hroom lit dist br
  · exact room_start hle

/-- Nor does it with an unknown history. -/
theorem neverOverruns_decodeCompressedSpeculative (grow : Reserve) {copyN : ℕ}
    (hn : copyN ≤ HEADROOM) (chunkBase : ℕ) (lit dist : HuffmanDecoder) (br : BitReader)
    {len capacity : ℕ} (hle : len ≤ capacity) :
    NeverOverruns (decodeCompressedSpeculative grow copyN chunkBase lit dist)
      (start grow len capacity, br) := by
  apply neverOverruns_of_keeps
  · intro o br hroom
    exact keeps_fastRound (keeps_resolveSpeculative hn hroom chunkBase) hroom lit dist br
  · exact room_start hle

/-- The serial kernel never leaves its room. -/
theorem neverOverruns_serialRound (grow : Reserve) (lit dist : HuffmanDecoder) (br : BitReader)
    {len capacity : ℕ} (hle : len ≤ capacity) :
    NeverOverruns (serialRound grow lit dist) (start grow len capacity, br) := by
  apply neverOverruns_of_keeps
  · intro o br hroom
    exact keeps_serialRound hroom lit dist br
  · exact room_start hle

/-! ## The bytes behind the cursor -/

section Simulation

variable {τ : Type} {size : τ → ℕ} {grow : Reserve} {copyN : ℕ} {dist : HuffmanDecoder}

/-- The kernel with a cursor does what a kernel over outputs of a size does. -/
def Simulates (size : τ → ℕ) (r : Except DeflateError ((τ × BitReader) ⊕ (τ × BitReader)))
    (r' : Except DeflateError ((Output × BitReader) ⊕ (Output × BitReader))) : Prop :=
  match r with
  | .error e => r' = .error e
  | .ok (.inl (t, br)) => ∃ o, r' = .ok (.inl (o, br)) ∧ o.cur = size t
  | .ok (.inr (t, br)) => ∃ o, r' = .ok (.inr (o, br)) ∧ o.cur = size t

/-- The copy with a cursor does what a copy of an output of a size does. -/
def Sizes (size : τ → ℕ) (r : Except DeflateError τ) (r' : Except DeflateError Output) : Prop :=
  match r with
  | .error e => r' = .error e
  | .ok t => ∃ o, r' = .ok o ∧ o.cur = size t

/-- Making headroom leaves the cursor. -/
@[simp] theorem headroom_cur (o : Output) : (o.headroom grow).cur = o.cur := by
  unfold Output.headroom
  split <;> rfl

/-- A copy moves the cursor on by its length. -/
theorem result_copyWithin (o : Output) (distance length : ℕ) :
    ∃ o', (copyWithin grow copyN o distance length).result = .ok o' ∧
      o'.cur = o.cur + length := by
  refine ⟨_, rfl, ?_⟩
  rw [headroom_cur]
  simp only
  split <;> rfl

/-- A literal moves the cursor on by one. -/
theorem result_pushLiteral (o : Output) :
    ∃ o', (pushLiteral grow o).result = .ok o' ∧ o'.cur = o.cur + 1 := by
  refine ⟨_, rfl, ?_⟩
  simp only
  split <;> rfl

/-- Two literals move the cursor on by two. -/
theorem result_pushLiterals (o : Output) :
    ∃ o', (pushLiterals grow o).result = .ok o' ∧ o'.cur = o.cur + 2 := by
  refine ⟨_, rfl, ?_⟩
  simp only
  split <;> rfl

/-- A match makes the vector as long as the list. -/
theorem sizes_resolve {out : List UInt8} {o : Output} (h : o.cur = out.length)
    (distance length : ℕ) :
    Sizes List.length (FastInflate.resolve out distance length)
      (resolve grow copyN o distance length).result := by
  unfold FastInflate.resolve resolve
  rw [h]
  by_cases hzero : distance = 0
  · rw [if_pos hzero, if_pos hzero]
    rfl
  by_cases hfar : out.length < distance
  · rw [if_neg hzero, if_neg hzero, if_pos hfar, if_pos hfar]
    rfl
  · obtain ⟨o', hres, hcur⟩ := @result_copyWithin grow copyN o distance length
    have hlen := PreloadRoom.copyBackRaw_length length (show 0 < distance by omega)
      (show distance ≤ out.length by omega)
    rw [if_neg hzero, if_neg hzero, if_neg hfar, if_neg hfar]
    exact ⟨o', hres, by rw [hcur, hlen, h]⟩

/-- A match of the serial kernel makes the vector as long as the list. -/
theorem sizes_resolveSerial {out : List UInt8} {o : Output} (h : o.cur = out.length)
    (distance length : ℕ) :
    Sizes List.length (Inflate.resolve out distance length)
      (resolveSerial grow o distance length).result := by
  unfold Inflate.resolve resolveSerial
  rw [h]
  by_cases hbad : distance = 0 ∨ out.length < distance
  · rw [if_pos hbad, if_pos hbad]
    rfl
  by_cases hfar : MAX_DISTANCE < distance
  · rw [if_neg hbad, if_neg hbad, if_pos hfar, if_pos hfar]
    rfl
  · have hlen := PreloadRoom.copyBackRaw_length length (show 0 < distance by omega)
      (show distance ≤ out.length by omega)
    rw [if_neg hbad, if_neg hbad, if_neg hfar, if_neg hfar]
    refine ⟨_, rfl, ?_⟩
    rw [headroom_cur, hlen]

/-- A match with the side table makes the vector as long as the list. -/
theorem sizes_resolveSpeculative {t : SideTable.Output} {o : Output}
    (h : o.cur = t.bytes.length) (chunkBase distance length : ℕ) :
    Sizes (fun t => t.bytes.length) (SideTable.resolve chunkBase t distance length)
      (resolveSpeculative grow copyN chunkBase o distance length).result := by
  unfold SideTable.resolve resolveSpeculative
  simp only [h]
  by_cases hover : t.bytes.length - chunkBase < distance
  · rw [if_pos hover, if_pos hover]
    obtain ⟨count, hcount⟩ : ∃ count,
        min (distance - (t.bytes.length - chunkBase)) length = count := ⟨_, rfl⟩
    simp only [hcount]
    obtain ⟨o', ho', hsame⟩ : ∃ o', (if subUsize o.capacity t.bytes.length < length then
        o.reserve grow length else o) = o' ∧ o'.cur = t.bytes.length := by
      refine ⟨_, rfl, ?_⟩
      split
      · exact h
      · exact h
    simp only [ho', Traced.result_bind, Traced.result_tell]
    by_cases hrest : 0 < length - count
    · obtain ⟨o'', hres, hcur⟩ := @result_copyWithin grow copyN
        { o' with cur := o'.cur + count } distance (length - count)
      have hzeros : (t.bytes ++ List.replicate count (0 : UInt8)).length =
          t.bytes.length + count := by
        rw [List.length_append, List.length_replicate]
      have hlen := PreloadRoom.copyBackRaw_length (length - count) (show 0 < distance by omega)
        (show distance ≤ (t.bytes ++ List.replicate count (0 : UInt8)).length by omega)
      rw [if_pos hrest, if_pos hrest]
      exact ⟨o'', hres, by simp only [hcur, hlen, hzeros, hsame]⟩
    · rw [if_neg hrest, if_neg hrest]
      refine ⟨_, rfl, ?_⟩
      simp only [List.length_append, List.length_replicate, hsame]
  · rw [if_neg hover, if_neg hover]
    by_cases hzero : distance = 0
    · rw [if_pos hzero, if_pos hzero]
      rfl
    · obtain ⟨o', hres, hcur⟩ := @result_copyWithin grow copyN o distance length
      have hlen := PreloadRoom.copyBackRaw_length length (show 0 < distance by omega)
        (show distance ≤ t.bytes.length by omega)
      rw [if_neg hzero, if_neg hzero]
      exact ⟨o', hres, by simp only [hcur, hlen, h]⟩

/-- What the kernels over outputs do with an entry that is no literal. -/
def outputTail (resolve : τ → ℕ → ℕ → Except DeflateError τ) (dist : HuffmanDecoder)
    (entry : ℕ) (t : τ) (br : BitReader) :
    Except DeflateError ((τ × BitReader) ⊕ (τ × BitReader)) :=
  if entry &&& HUFFDEC_EXCEPTIONAL ≠ 0 then
    if entry >>> 16 = 0 then .ok (.inr (t, br))
    else .error (.invalid "literal/length symbol out of range")
  else
    let (length, br) := lengthOf entry br
    (copyMatch resolve dist length t br).map .inl

/-- Reading a copy and making it. -/
theorem simulates_copy {resolve : τ → ℕ → ℕ → Except DeflateError τ}
    {resolve' : Output → ℕ → ℕ → Kernel Output} {t : τ} {o : Output} {length : ℕ}
    (hsizes : ∀ distance, Sizes size (resolve t distance length)
      (resolve' o distance length).result) (br : BitReader) :
    Simulates size ((copyMatch resolve dist length t br).map .inl)
      (do
        let (distance, br) ← Traced.lift (distanceOf dist br)
        let o ← resolve' o distance length
        pure (.inl (o, br)) : Round).result := by
  unfold copyMatch
  rw [Traced.result_bind, Traced.result_lift]
  cases distanceOf dist br with
  | error e => rfl
  | ok r =>
    obtain ⟨distance, br⟩ := r
    have hcopy := hsizes distance
    simp only [bind, Except.bind]
    cases hres : resolve t distance length with
    | error e =>
      rw [hres] at hcopy
      simp only [Sizes] at hcopy
      have hfail := Traced.result_bind (resolve' o distance length)
        fun o => (pure (.inl (o, br)) : Round)
      rw [hcopy] at hfail
      exact hfail
    | ok t' =>
      rw [hres] at hcopy
      obtain ⟨o', ho', hsize⟩ := hcopy
      have hok := Traced.result_bind (resolve' o distance length)
        fun o => (pure (.inl (o, br)) : Round)
      rw [ho'] at hok
      exact ⟨o', hok, hsize⟩

/-- One literal, or two. -/
theorem simulates_literals {t₁ t₂ : τ} {o : Output} (h₁ : o.cur + 1 = size t₁)
    (h₂ : o.cur + 2 = size t₂) (c : Prop) [Decidable c] (br br₂ : BitReader) :
    Simulates size (if c then .ok (.inl (t₂, br₂)) else .ok (.inl (t₁, br)))
      (if c then do
          let o ← pushLiterals grow o
          pure (.inl (o, br₂))
        else do
          let o ← pushLiteral grow o
          pure (.inl (o, br)) : Round).result := by
  by_cases hc : c
  · obtain ⟨o', hres, hcur⟩ := @result_pushLiterals grow o
    rw [if_pos hc, if_pos hc, Traced.result_bind, hres]
    exact ⟨o', rfl, by rw [hcur, h₂]⟩
  · obtain ⟨o', hres, hcur⟩ := @result_pushLiteral grow o
    rw [if_neg hc, if_neg hc, Traced.result_bind, hres]
    exact ⟨o', rfl, by rw [hcur, h₁]⟩

/-- An entry that is no literal. -/
theorem simulates_symbolTail {resolve : τ → ℕ → ℕ → Except DeflateError τ}
    {resolve' : Output → ℕ → ℕ → Kernel Output} {t : τ} {o : Output} (h : o.cur = size t)
    (hsizes : ∀ distance length, Sizes size (resolve t distance length)
      (resolve' o distance length).result) (entry : ℕ) (br : BitReader) :
    Simulates size (outputTail resolve dist entry t br)
      (symbolTail resolve' dist entry o br).result := by
  unfold outputTail symbolTail
  by_cases hexc : entry &&& HUFFDEC_EXCEPTIONAL ≠ 0
  · rw [if_pos hexc, if_pos hexc]
    by_cases hend : entry >>> 16 = 0
    · rw [if_pos hend, if_pos hend]
      exact ⟨o, rfl, h⟩
    · rw [if_neg hend, if_neg hend]
      rfl
  · rw [if_neg hexc, if_neg hexc]
    exact simulates_copy (fun distance => hsizes distance _) _

/-- What follows a symbol is one function for all kinds of outputs. -/
theorem symbolTail_eq_outputTail {α : Type}
    (resolve : List α → ℕ → ℕ → Except DeflateError (List α)) (entry : ℕ) (out : List α)
    (br : BitReader) :
    RustyRapidgzip.symbolTail resolve dist entry out br = outputTail resolve dist entry out br := by
  unfold RustyRapidgzip.symbolTail outputTail
  simp only
  cases copyMatch resolve dist (lengthOf entry br).1 out (lengthOf entry br).2 <;> rfl

/-- The fast kernel over bytes, in step with the one over cursors. -/
theorem simulates_decodeCompressed (lit dist : HuffmanDecoder) {out : List UInt8} {o : Output}
    (h : o.cur = out.length) (br : BitReader) :
    Simulates List.length (FastInflate.round lit dist (out, br))
      (decodeCompressed grow copyN lit dist (o, br)).result := by
  unfold FastInflate.round decodeCompressed fastRound
  simp only [Traced.result_bind, Traced.result_lift]
  cases br.refillKernel with
  | error e => rfl
  | ok br =>
    simp only [bind, Except.bind]
    cases lit.lookupFilled br with
    | error e => rfl
    | ok r =>
      obtain ⟨entry, br⟩ := r
      simp only
      by_cases hliteral : entry &&& HUFFDEC_LITERAL ≠ 0
      · rw [if_pos hliteral, if_pos hliteral]
        exact simulates_literals (by simp [h]) (by simp [h]) _ _ _
      · rw [if_neg hliteral, if_neg hliteral]
        rw [symbolTail_eq_outputTail]
        exact simulates_symbolTail h (sizes_resolve h) entry br

/-- The fast kernel with the side table, in step with the one over cursors. -/
theorem simulates_decodeCompressedSpeculative (chunkBase : ℕ) (lit dist : HuffmanDecoder)
    {t : SideTable.Output} {o : Output} (h : o.cur = t.bytes.length) (br : BitReader) :
    Simulates (fun t => t.bytes.length) (SideTable.round chunkBase lit dist (t, br))
      (decodeCompressedSpeculative grow copyN chunkBase lit dist (o, br)).result := by
  unfold SideTable.round decodeCompressedSpeculative fastRound
  simp only [Traced.result_bind, Traced.result_lift]
  cases br.refillKernel with
  | error e => rfl
  | ok br =>
    simp only [bind, Except.bind]
    cases lit.lookupFilled br with
    | error e => rfl
    | ok r =>
      obtain ⟨entry, br⟩ := r
      simp only
      by_cases hliteral : entry &&& HUFFDEC_LITERAL ≠ 0
      · rw [if_pos hliteral, if_pos hliteral]
        exact simulates_literals (by simp [SideTable.Output.push, h])
          (by simp [SideTable.Output.push, h]) _ _ _
      · rw [if_neg hliteral, if_neg hliteral]
        have htail := @simulates_symbolTail _ (fun t => t.bytes.length) dist _ _ t o h
          (@sizes_resolveSpeculative grow copyN t o h chunkBase) entry br
        unfold outputTail at htail
        simp only at htail
        cases hcopy : copyMatch (SideTable.resolve chunkBase) dist (lengthOf entry br).1 t
          (lengthOf entry br).2 with
        | error e =>
          rw [hcopy] at htail
          exact htail
        | ok s =>
          rw [hcopy] at htail
          exact htail

/-- The serial kernel over bytes, in step with the one over cursors. -/
theorem simulates_serialRound (lit dist : HuffmanDecoder) {out : List UInt8} {o : Output}
    (h : o.cur = out.length) (br : BitReader) :
    Simulates List.length (Inflate.round lit dist (out, br))
      (serialRound grow lit dist (o, br)).result := by
  unfold Inflate.round serialRound
  simp only
  generalize br.refill 48 = r
  obtain ⟨ok, br⟩ := r
  cases ok with
  | false => rfl
  | true =>
    simp only [Traced.result_bind, Traced.result_lift]
    cases lit.lookupFilled br with
    | error e => rfl
    | ok r =>
      obtain ⟨entry, br⟩ := r
      simp only [bind, Except.bind]
      by_cases hliteral : entry &&& HUFFDEC_LITERAL ≠ 0
      · obtain ⟨o', hres, hcur⟩ := @result_pushLiteral grow o
        have hok := Traced.result_bind (pushLiteral grow o)
          fun o => (pure (.inl (o, br)) : Round)
        rw [hres] at hok
        rw [if_pos hliteral, if_pos hliteral]
        exact ⟨o', hok, by simp [hcur, h]⟩
      · rw [if_neg hliteral, if_neg hliteral]
        rw [symbolTail_eq_outputTail]
        exact simulates_symbolTail h (sizes_resolveSerial h) entry br

/-- Where a kernel over outputs of a size gets, the kernel over cursors gets too. -/
theorem reached_of_simulates {body : τ × BitReader →
      Except DeflateError ((τ × BitReader) ⊕ (τ × BitReader))}
    {round : Output × BitReader → Round}
    (hsim : ∀ t o br, o.cur = size t → Simulates size (body (t, br)) (round (o, br)).result)
    {s s' : τ × BitReader} {o : Output} (h : o.cur = size s.1)
    (hrun : Relation.ReflTransGen (fun s s' => body s = .ok (.inl s')) s s') :
    ∃ o', Reached round (o, s.2) (o', s'.2) ∧ o'.cur = size s'.1 := by
  induction hrun with
  | refl => exact ⟨o, .refl, h⟩
  | @tail mid next _ hstep ih =>
    obtain ⟨o₁, hreached, hcur⟩ := ih
    have hround := hsim mid.1 o₁ mid.2 hcur
    rw [show body (mid.1, mid.2) = .ok (.inl next) from hstep] at hround
    obtain ⟨o', hnext, hcur'⟩ := hround
    exact ⟨o', hreached.tail hnext, hcur'⟩

/-- The vector of a kernel that never leaves its room has room for every output its run comes
through. -/
theorem NeverOverruns.room {body : τ × BitReader →
      Except DeflateError ((τ × BitReader) ⊕ (τ × BitReader))}
    {round : Output × BitReader → Round} {s s' : τ × BitReader} {o : Output}
    (hnever : NeverOverruns round (o, s.2))
    (hsim : ∀ t o br, o.cur = size t → Simulates size (body (t, br)) (round (o, br)).result)
    (h : o.cur = size s.1)
    (hrun : Relation.ReflTransGen (fun s s' => body s = .ok (.inl s')) s s') :
    ∃ o', Reached round (o, s.2) (o', s'.2) ∧ o'.cur = size s'.1 ∧ o'.cur ≤ o'.capacity := by
  obtain ⟨o', hreached, hcur⟩ := reached_of_simulates hsim h hrun
  have hroom := (hnever _ hreached).1
  exact ⟨o', hreached, hcur, by rw [← hroom.cap_eq]; exact hroom.cur_le⟩

/-- The output of the fast kernel, wherever its run comes, lies in the vector. -/
theorem room_decodeCompressed (grow : Reserve) {copyN : ℕ} (hn : copyN ≤ HEADROOM)
    (lit dist : HuffmanDecoder) {out : List UInt8} {br : BitReader} {capacity : ℕ}
    (hle : out.length ≤ capacity) {s : List UInt8 × BitReader}
    (hrun : Relation.ReflTransGen (fun s s' => FastInflate.round lit dist s = .ok (.inl s'))
      (out, br) s) :
    ∃ o, Reached (decodeCompressed grow copyN lit dist)
      (start grow out.length capacity, br) (o, s.2) ∧ o.cur = s.1.length ∧
        o.cur ≤ o.capacity :=
  @NeverOverruns.room _ List.length _ _ (out, br) s _
    (neverOverruns_decodeCompressed grow hn lit dist br hle)
    (fun _ _ br h => simulates_decodeCompressed lit dist h br) rfl hrun

/-- So does the output of the fast kernel with the side table. -/
theorem room_decodeCompressedSpeculative (grow : Reserve) {copyN : ℕ} (hn : copyN ≤ HEADROOM)
    (chunkBase : ℕ) (lit dist : HuffmanDecoder) {t : SideTable.Output} {br : BitReader}
    {capacity : ℕ} (hle : t.bytes.length ≤ capacity) {s : SideTable.Output × BitReader}
    (hrun : Relation.ReflTransGen
      (fun s s' => SideTable.round chunkBase lit dist s = .ok (.inl s')) (t, br) s) :
    ∃ o, Reached (decodeCompressedSpeculative grow copyN chunkBase lit dist)
      (start grow t.bytes.length capacity, br) (o, s.2) ∧ o.cur = s.1.bytes.length ∧
        o.cur ≤ o.capacity :=
  @NeverOverruns.room _ (fun t => t.bytes.length) _ _ (t, br) s _
    (neverOverruns_decodeCompressedSpeculative grow hn chunkBase lit dist br hle)
    (fun _ _ br h => simulates_decodeCompressedSpeculative chunkBase lit dist h br) rfl hrun

/-- So does the output of the serial kernel. -/
theorem room_serialRound (grow : Reserve) (lit dist : HuffmanDecoder) {out : List UInt8}
    {br : BitReader} {capacity : ℕ} (hle : out.length ≤ capacity) {s : List UInt8 × BitReader}
    (hrun : Relation.ReflTransGen (fun s s' => Inflate.round lit dist s = .ok (.inl s'))
      (out, br) s) :
    ∃ o, Reached (serialRound grow lit dist)
      (start grow out.length capacity, br) (o, s.2) ∧ o.cur = s.1.length ∧
        o.cur ≤ o.capacity :=
  @NeverOverruns.room _ List.length _ _ (out, br) s _
    (neverOverruns_serialRound grow lit dist br hle)
    (fun _ _ br h => simulates_serialRound lit dist h br) rfl hrun

end Simulation

end KernelRoom

end RustyRapidgzip
