import RustyRapidgzip.Deflate.Resident
import RustyRapidgzip.Pipeline.ChunkSize
import RustyRapidgzip.Pipeline.Source

/-!
# Cutting a stream into items

The dispatcher of the streaming pipeline reads ahead, asks the finder for the next block, and
cuts an item there; what is left at the end of the source is the final region. Places in the
body are counted in three ways: absolutely, from the buffer's first byte, and from an item's
first byte. The items tile the body in the absolute count.
-/

namespace RustyRapidgzip

namespace Pipeline

namespace Streaming

/-- The bytes behind its boundary that an item takes along. -/
def PAD : ℕ := 8

/-- The bytes to read behind a target, to find and check a block there. -/
def SCAN_LOOKAHEAD : ℕ := 256 * 1024

/-- The hint of the final region. -/
def U64_MAX : ℕ := 2 ^ 64 - 1

/-- One item of work. `baseByte` is the place of its first byte in the body; its start and its
hint count from there. -/
structure Item where
  id : ℕ
  bytes : List UInt8
  startBit : ℕ
  endBitHint : ℕ
  isFinalRegion : Bool
  baseByte : ℕ
  deriving DecidableEq, Repr

/-- Copy an item out of the buffer. -/
def emit (src : Source) (id itemStartBit endBit : ℕ) (isFinalRegion : Bool) : Item :=
  let startByte := itemStartBit / 8
  let startRel := startByte - src.base
  let startBitInSlice := itemStartBit - startByte * 8
  if isFinalRegion then
    ⟨id, src.buf.drop startRel, startBitInSlice, U64_MAX, isFinalRegion, startByte⟩
  else
    let endByte := (endBit + 7) / 8
    let takeTo := min (endByte - src.base + PAD) src.buf.length
    ⟨id, (src.buf.take takeTo).drop startRel, startBitInSlice, endBit - startByte * 8,
      isFinalRegion, startByte⟩

/-- An item that was sent, with the end of the resident bytes it was cut from. -/
structure Sent where
  item : Item
  absEnd : ℕ
  deriving DecidableEq, Repr

/-- Why dispatching stops early. The target position is a 64-bit number. -/
inductive DispatchError where
  | overflow
  | failed (e : Error)
  deriving DecidableEq

/-- The dispatcher between two rounds: its source, the start and the number of the next item, and
what it has sent. -/
structure DispatchState where
  src : Source
  itemStartBit : ℕ
  id : ℕ
  sent : List Sent
  deriving DecidableEq, Repr

namespace DispatchState

/-- Cut an item at a block. -/
def cut (st : DispatchState) (src : Source) (endBit : ℕ) : DispatchState where
  src := src.drainTo (endBit / 8)
  itemStartBit := endBit
  id := st.id + 1
  sent := st.sent ++ [⟨emit src st.id st.itemStartBit endBit false, src.absEnd⟩]

/-- Read the rest of the source and send it as the final region. -/
def finish (st : DispatchState) (src : Source) :
    Except DispatchError (DispatchState ⊕ DispatchState) :=
  match src.readToEof with
  | .error e => .error (.failed e)
  | .ok src => .ok (.inr { st with
      src, sent := st.sent ++ [⟨emit src st.id st.itemStartBit U64_MAX true, src.absEnd⟩] })

end DispatchState

/-- A finder: the bytes, and the range of bits to search. -/
abbrev Finder : Type := List UInt8 → ℕ → ℕ → Option ℕ

/-- The next block in the resident bytes. -/
def boundary (find : Finder) (src : Source) (targetBit : ℕ) : Option ℕ :=
  let residentBits := src.buf.length * 8
  let fromRel := targetBit - src.base * 8
  if residentBits ≤ fromRel then none
  else (find src.buf fromRel residentBits).map (src.base * 8 + ·)

/-- One round of the dispatcher. -/
def dispatchRound (find : Finder) (chunkBits : ℕ) (st : DispatchState) :
    Except DispatchError (DispatchState ⊕ DispatchState) :=
  let targetBit := st.itemStartBit + chunkBits
  if 2 ^ 64 ≤ targetBit then .error .overflow
  else match st.src.fillTo (targetBit / 8 + SCAN_LOOKAHEAD) with
    | .error e => .error (.failed e)
    | .ok src =>
      match boundary find src targetBit with
      | some endBit => .ok (.inl (st.cut src endBit))
      | none =>
        -- a read that returns something gives the finder more to search
        if src.srcEof = false then
          if src.fillMore.1 = 0 then st.finish src.fillMore.2
          else .ok (.inl { st with src := src.fillMore.2 })
        else st.finish src

/-- The rounds that suffice: each one cuts an item or makes a read. -/
def dispatchRounds (src : Source) : ℕ := 8 * src.pending.length + src.reads.length + 2

/-- Dispatch a stream, with the token channel and the work channel open. Returns the number of
bytes read and what was sent. -/
def dispatch (find : Finder) (chunkBytes : ℕ) (reads : List (List UInt8)) :
    Except DispatchError (ℕ × List Sent) :=
  match (Source.new reads).fillMore.2.stripFirstHeader with
  | .error e => .error (.failed e)
  | .ok src =>
    match Loop.iterate (.failed (.deflate .outOfFuel))
        (dispatchRound find (chunkTarget chunkBytes * 8)) (dispatchRounds src) ⟨src, 0, 0, []⟩ with
    | .error e => .error e
    | .ok st => .ok (st.src.totalRead, st.sent)

/-! ## The tiling -/

/-- An item between two places in the body. -/
structure Cut (body : List UInt8) (id start stop : ℕ) (s : Sent) : Prop where
  id_eq : s.item.id = id
  start_eq : s.item.baseByte * 8 + s.item.startBit = start
  startBit_lt : s.item.startBit < 8
  stop_eq : s.item.baseByte * 8 + s.item.endBitHint = stop
  start_lt : start < stop
  stop_le : stop ≤ 8 * s.absEnd
  absEnd_le : s.absEnd ≤ body.length
  region : s.item.isFinalRegion = false
  bytes_eq : s.item.bytes =
    (body.take (min ((stop + 7) / 8 + PAD) s.absEnd)).drop s.item.baseByte

/-- The item from a place in the body to its end. -/
structure Last (body : List UInt8) (id start : ℕ) (s : Sent) : Prop where
  id_eq : s.item.id = id
  start_eq : s.item.baseByte * 8 + s.item.startBit = start
  startBit_lt : s.item.startBit < 8
  start_lt : body ≠ [] → start < 8 * body.length
  hint_eq : s.item.endBitHint = U64_MAX
  absEnd_eq : s.absEnd = body.length
  region : s.item.isFinalRegion = true
  bytes_eq : s.item.bytes = body.drop s.item.baseByte

/-- Items that tile the body from a place on: each one ends where the next one starts, and the
last one, and no other, is the final region. -/
inductive Tiled (body : List UInt8) : ℕ → ℕ → List Sent → Prop
  | last {id start : ℕ} {s : Sent} (h : Last body id start s) : Tiled body id start [s]
  | cut {id start stop : ℕ} {s : Sent} {rest : List Sent} (h : Cut body id start stop s)
      (hrest : Tiled body (id + 1) stop rest) : Tiled body id start (s :: rest)

/-- What is asked of a finder: a block it returns lies in the range that it was to search. -/
def Answers (find : Finder) : Prop :=
  ∀ data fromBit untilBit pos, untilBit ≤ 8 * data.length →
    find data fromBit untilBit = some pos → fromBit ≤ pos ∧ pos < untilBit

/-- The finder of the decoder finds blocks in its range. -/
theorem answers_findNextDynamicBlock : Answers BlockFinder.findNextDynamicBlock := by
  intro data fromBit untilBit pos huntil hfind
  rcases BlockFinder.findNextDynamicBlock_cases data fromBit untilBit with
    ⟨n, hsome, hblock, -⟩ | ⟨hnone, -⟩
  · obtain rfl : _ = pos := Option.some.inj (hsome.symm.trans hfind)
    have hroom := hblock.room
    have h13 : BlockFinder.LUT_BITS = 13 := rfl
    exact ⟨hblock.from_le, by omega⟩
  · rw [hnone] at hfind
    cases hfind

/-- A boundary lies behind its target and within what was read. -/
theorem boundary_spec {find : Finder} {src : Source} {targetBit endBit : ℕ} (hfind : Answers find)
    (h : boundary find src targetBit = some endBit) :
    targetBit ≤ endBit ∧ src.base * 8 ≤ endBit ∧ endBit < 8 * src.absEnd := by
  unfold boundary at h
  simp only at h
  split at h
  · cases h
  · obtain ⟨rel, hrel, rfl⟩ := Option.map_eq_some_iff.mp h
    have hrange := hfind _ _ _ _ (by omega) hrel
    unfold Source.absEnd
    omega

/-! ## One round -/

/-- The dispatcher's state between two items: the buffer starts at the item's first byte, and
the rest of the body is to come. -/
structure Ready (body : List UInt8) (total : ℕ) (st : DispatchState) : Prop where
  good : st.src.Good
  base_eq : st.src.base = st.itemStartBit / 8
  pending_eq : st.src.pending = body.drop st.src.base
  start_lt : st.itemStartBit = 0 ∨ st.itemStartBit < 8 * body.length
  total_eq : st.src.total = total

section Round

variable {body : List UInt8} {total : ℕ} {st : DispatchState} {src : Source}

/-- Reading keeps the dispatcher ready. -/
theorem Ready.reads (h : Ready body total st) (hreads : st.src.Reads src) :
    Ready body total { st with src } where
  good := hreads.good
  base_eq := hreads.base_eq.trans h.base_eq
  pending_eq := by rw [hreads.pending_eq, h.pending_eq, hreads.base_eq]
  start_lt := h.start_lt
  total_eq := hreads.total_eq.trans h.total_eq

/-- The buffer starts within the body. -/
theorem Ready.base_le (h : Ready body total st) : st.src.base ≤ body.length := by
  rw [h.base_eq]
  rcases h.start_lt with hzero | hlt <;> omega

/-- The buffer is a piece of the body. -/
theorem Ready.buf_take (h : Ready body total st) {k : ℕ} (hk : k ≤ st.src.buf.length) :
    st.src.buf.take k = (body.drop st.src.base).take k := by
  rw [← h.pending_eq, Source.pending, List.take_append_of_le_length hk]

/-- The finder of the decoder finds what it would find in all of the body that was read. -/
theorem Ready.boundary_eq (h : Ready body total st) {targetBit : ℕ}
    (htarget : 8 * st.src.base ≤ targetBit) :
    boundary BlockFinder.findNextDynamicBlock st.src targetBit =
      BlockFinder.findNextDynamicBlock (body.take st.src.absEnd) targetBit
        (8 * st.src.absEnd) := by
  have hbase := h.base_le
  have htake : body.take st.src.absEnd = body.take st.src.base ++ st.src.buf := by
    have hbuf := h.buf_take (Nat.le_refl _)
    rw [List.take_length] at hbuf
    rw [Source.absEnd, List.take_add, ← hbuf]
  have hlength : (body.take st.src.base).length = st.src.base := by
    rw [List.length_take, Nat.min_eq_left hbase]
  have happend := BlockFinder.findNextDynamicBlock_append (body.take st.src.base) st.src.buf
    (targetBit - 8 * st.src.base) (8 * st.src.buf.length)
  rw [hlength, Nat.add_sub_cancel' htarget, ← Nat.mul_add] at happend
  rw [htake, Source.absEnd, happend, boundary, Nat.mul_comm st.src.buf.length,
    Nat.mul_comm st.src.base]
  split
  case isTrue hend =>
    rw [BlockFinder.findNextDynamicBlock, if_pos (by omega)]
    rfl
  case isFalse _ => rfl

/-- The buffer ends within the body. -/
theorem Ready.absEnd_le (h : Ready body total st) : st.src.absEnd ≤ body.length := by
  have hlen := congrArg List.length h.pending_eq
  rw [Source.pending, List.length_append, List.length_drop] at hlen
  have hbase := h.base_le
  unfold Source.absEnd
  omega

/-- An item that ends in the resident bytes. -/
theorem Ready.emit_cut (h : Ready body total st) {endBit : ℕ} (hstart : st.itemStartBit < endBit)
    (hend : endBit < 8 * st.src.absEnd) : Cut body st.id st.itemStartBit endBit
      ⟨emit st.src st.id st.itemStartBit endBit false, st.src.absEnd⟩ where
  id_eq := rfl
  start_eq := by
    show st.itemStartBit / 8 * 8 + (st.itemStartBit - st.itemStartBit / 8 * 8) = st.itemStartBit
    omega
  startBit_lt := by
    show st.itemStartBit - st.itemStartBit / 8 * 8 < 8
    omega
  stop_eq := by
    show st.itemStartBit / 8 * 8 + (endBit - st.itemStartBit / 8 * 8) = endBit
    omega
  start_lt := hstart
  stop_le := hend.le
  absEnd_le := h.absEnd_le
  region := rfl
  bytes_eq := by
    show (st.src.buf.take (min ((endBit + 7) / 8 - st.src.base + PAD) st.src.buf.length)).drop
      (st.itemStartBit / 8 - st.src.base) =
      (body.take (min ((endBit + 7) / 8 + PAD) st.src.absEnd)).drop (st.itemStartBit / 8)
    have hbase := h.base_eq
    rw [h.buf_take (Nat.min_le_right _ _), ← hbase, Nat.sub_self, List.drop_zero, List.drop_take]
    congr 1
    unfold Source.absEnd
    omega

/-- The item of what is left, once the source has ended. -/
theorem Ready.emit_last (h : Ready body total st) (heof : st.src.srcEof = true) :
    Last body st.id st.itemStartBit
      ⟨emit st.src st.id st.itemStartBit U64_MAX true, st.src.absEnd⟩ where
  id_eq := rfl
  start_eq := by
    show st.itemStartBit / 8 * 8 + (st.itemStartBit - st.itemStartBit / 8 * 8) = st.itemStartBit
    omega
  startBit_lt := by
    show st.itemStartBit - st.itemStartBit / 8 * 8 < 8
    omega
  start_lt hbody := by
    have hpos := List.length_pos_iff.mpr hbody
    rcases h.start_lt with hzero | hlt <;> omega
  hint_eq := rfl
  absEnd_eq := by
    have hbuf := congrArg List.length (Source.pending_eq_buf h.good heof)
    rw [h.pending_eq, List.length_drop] at hbuf
    have hbase := h.base_le
    show st.src.base + st.src.buf.length = body.length
    omega
  region := rfl
  bytes_eq := by
    show st.src.buf.drop (st.itemStartBit / 8 - st.src.base) = body.drop (st.itemStartBit / 8)
    rw [← Source.pending_eq_buf h.good heof, ← h.base_eq, Nat.sub_self, List.drop_zero,
      h.pending_eq]

/-- The bytes before a cut are dropped. -/
theorem Ready.drains (h : Ready body total st) {endBit : ℕ} (hstart : st.itemStartBit < endBit)
    (hend : endBit < 8 * st.src.absEnd) :
    st.src.Drains (st.src.drainTo (endBit / 8)) (endBit / 8) := by
  have hbase := h.base_eq
  apply Source.drainTo_spec h.good <;> omega

/-- Behind a cut the buffer starts at the next item's first byte. -/
theorem Ready.cut (h : Ready body total st) {endBit : ℕ} (hstart : st.itemStartBit < endBit)
    (hend : endBit < 8 * st.src.absEnd) : Ready body total (st.cut st.src endBit) := by
  have hbase := h.base_eq
  have hdrain := h.drains hstart hend
  have habs := h.absEnd_le
  constructor
  · exact hdrain.good
  · exact hdrain.base_eq
  · calc (st.src.drainTo (endBit / 8)).pending
      _ = (body.drop st.src.base).drop (endBit / 8 - st.src.base) := by
        rw [hdrain.pending_eq, h.pending_eq]
      _ = body.drop (endBit / 8) := by
        rw [List.drop_drop]
        congr 1
        omega
      _ = body.drop (st.src.drainTo (endBit / 8)).base := by rw [hdrain.base_eq]
  · right
    show endBit < 8 * body.length
    omega
  · exact hdrain.total_eq.trans h.total_eq

/-- The rest of a run: a target overflows, or what it sends tiles the rest of the body and the
whole source is read. -/
def Tiles (chunkBits : ℕ) (body : List UInt8) (total : ℕ) (st : DispatchState) :
    Except DispatchError DispatchState → Prop
  | .error e => e = .overflow ∧ 2 ^ 64 ≤ 8 * body.length + chunkBits
  | .ok st' => st'.src.totalRead = total ∧
      ∃ rest, st'.sent = st.sent ++ rest ∧ Tiled body st.id st.itemStartBit rest

/-- An item and a tiling from its end on are a tiling. -/
theorem Tiles.of_cut {chunkBits endBit : ℕ} {r : Except DispatchError DispatchState}
    (hcut : Cut body st.id st.itemStartBit endBit
      ⟨emit src st.id st.itemStartBit endBit false, src.absEnd⟩)
    (h : Tiles chunkBits body total (st.cut src endBit) r) : Tiles chunkBits body total st r := by
  cases r with
  | error e => exact h
  | ok st' =>
    obtain ⟨htotal, rest, hsent, hrest⟩ := h
    refine ⟨htotal, _ :: rest, ?_, Tiled.cut hcut hrest⟩
    rw [hsent, DispatchState.cut, List.append_assoc, List.singleton_append]

/-- The final region ends the run. -/
theorem Ready.finish (chunkBits : ℕ) (h : Ready body total st) :
    ∃ st', st.finish st.src = .ok (.inr st') ∧ Tiles chunkBits body total st (.ok st') := by
  obtain ⟨src, hok, hreads, heof⟩ := Source.exists_readToEof h.good
  have hready := h.reads hreads
  refine ⟨_, by rw [DispatchState.finish, hok], ?_, _, rfl, Tiled.last (hready.emit_last heof)⟩
  have htotal := hready.total_eq
  rwa [Source.total, hready.good.eof heof, List.flatten_nil, List.length_nil, Nat.add_zero]
    at htotal

/-- What a run still has to do: bits to cut and reads to make. -/
def todo (body : List UInt8) (st : DispatchState) : ℕ :=
  8 * body.length - st.itemStartBit + st.src.left

/-- One round of the dispatcher, in terms of what the rest of the run sends. -/
theorem Ready.round {find : Finder} {chunkBits : ℕ} (hfind : Answers find) (hchunk : 0 < chunkBits)
    (h : Ready body total st) :
    Loop.RoundKeeps (Ready body total) (Tiles chunkBits body total) (todo body) st
      (dispatchRound find chunkBits st) := by
  unfold dispatchRound
  simp only
  by_cases hover : 2 ^ 64 ≤ st.itemStartBit + chunkBits
  · rw [if_pos hover]
    refine ⟨rfl, ?_⟩
    rcases h.start_lt with hzero | hlt <;> omega
  rw [if_neg hover]
  obtain ⟨src, hok, hreads, -⟩ := Source.exists_fillTo
    ((st.itemStartBit + chunkBits) / 8 + SCAN_LOOKAHEAD) h.good
  have hready := h.reads hreads
  have hfinish {src' : Source} (hreads' : src.Reads src') : Loop.RoundKeeps (Ready body total)
      (Tiles chunkBits body total) (todo body) st (st.finish src') := by
    obtain ⟨st', hdone, htiles⟩ := (hready.reads hreads').finish chunkBits
    have hst : st.finish src' = .ok (.inr st') := hdone
    rw [hst]
    exact htiles
  simp only [hok]
  cases hboundary : boundary find src (st.itemStartBit + chunkBits) with
  | some endBit =>
    obtain ⟨htarget, -, hend⟩ := boundary_spec hfind hboundary
    have hstart : st.itemStartBit < endBit := by omega
    have hcut := hready.emit_cut hstart hend
    refine ⟨hready.cut hstart hend, ?_, fun r hr => Tiles.of_cut hcut hr⟩
    have hleft : (src.drainTo (endBit / 8)).left = src.left := (hready.drains hstart hend).left_eq
    have hle := hreads.left_le
    have habs := hcut.stop_le.trans (Nat.mul_le_mul_left 8 hcut.absEnd_le)
    show 8 * body.length - endBit + (src.drainTo (endBit / 8)).left < todo body st
    unfold todo
    omega
  | none =>
    cases heof : src.srcEof with
    | true => simpa [heof] using hfinish (Source.Reads.refl hready.good)
    | false =>
      obtain ⟨hmore, hlt, hzero⟩ := Source.fillMore_spec hready.good heof
      simp only [if_true]
      split
      · exact hfinish hmore
      · refine ⟨hready.reads hmore, ?_, fun r hr => ?_⟩
        · have hle := hreads.left_le
          have hleft : src.fillMore.2.left < src.left := hlt
          show 8 * body.length - st.itemStartBit + src.fillMore.2.left < todo body st
          unfold todo
          omega
        · cases r <;> exact hr

/-- Once more is wanted than the body has, the source is read to its end. -/
theorem Ready.exists_fillTo (h : Ready body total st) {want : ℕ} (hwant : body.length < want) :
    ∃ src, st.src.fillTo want = .ok src ∧ Ready body total { st with src } ∧
      src.srcEof = true ∧ src.absEnd = body.length := by
  obtain ⟨src, hok, hreads, hend⟩ := Source.exists_fillTo want h.good
  have hready := h.reads hreads
  have heof : src.srcEof = true := by
    have hle : src.absEnd ≤ body.length := hready.absEnd_le
    exact hend.resolve_left (by omega)
  exact ⟨src, hok, hready, heof, (hready.emit_last heof).absEnd_eq⟩

section Short

variable {chunkBits : ℕ}

/-- A round that has read all of a short body searches all of it. -/
theorem Ready.exists_boundary (h : Ready body total st)
    (hshort : body.length < (st.itemStartBit + chunkBits) / 8 + SCAN_LOOKAHEAD) :
    ∃ src, st.src.fillTo ((st.itemStartBit + chunkBits) / 8 + SCAN_LOOKAHEAD) = .ok src ∧
      Ready body total { st with src } ∧ src.srcEof = true ∧ src.absEnd = body.length ∧
      boundary BlockFinder.findNextDynamicBlock src (st.itemStartBit + chunkBits) =
        BlockFinder.findNextDynamicBlock body (st.itemStartBit + chunkBits)
          (8 * body.length) := by
  obtain ⟨src, hfill, hready, heof, hend⟩ := h.exists_fillTo hshort
  have hbase : src.base = st.itemStartBit / 8 := hready.base_eq
  have hboundary : boundary _ src _ = BlockFinder.findNextDynamicBlock (body.take src.absEnd)
      (st.itemStartBit + chunkBits) (8 * src.absEnd) :=
    hready.boundary_eq (by show 8 * src.base ≤ _; omega)
  rw [hend, List.take_length] at hboundary
  exact ⟨src, hfill, hready, heof, hend, hboundary⟩

/-- A round that has read all of a short body cuts it at the block. -/
theorem Ready.round_cut (h : Ready body total st) {endBit : ℕ} (hpos : 0 < chunkBits)
    (hshort : body.length < (st.itemStartBit + chunkBits) / 8 + SCAN_LOOKAHEAD)
    (hover : st.itemStartBit + chunkBits < 2 ^ 64)
    (hfound : BlockFinder.findNextDynamicBlock body (st.itemStartBit + chunkBits)
      (8 * body.length) = some endBit) :
    ∃ src, dispatchRound BlockFinder.findNextDynamicBlock chunkBits st =
        .ok (.inl (st.cut src endBit)) ∧ Ready body total (st.cut src endBit) := by
  obtain ⟨src, hfill, hready, -, hend, hboundary⟩ := h.exists_boundary hshort
  rw [hfound] at hboundary
  obtain ⟨htarget, -, hlt⟩ := boundary_spec answers_findNextDynamicBlock hboundary
  refine ⟨src, ?_, hready.cut (show st.itemStartBit < endBit by omega) hlt⟩
  simp only [dispatchRound, if_neg (Nat.not_le.mpr hover), hfill, hboundary]

/-- A round that has read all of a short body, and finds no block, sends the rest. -/
theorem Ready.round_last (h : Ready body total st)
    (hshort : body.length < (st.itemStartBit + chunkBits) / 8 + SCAN_LOOKAHEAD)
    (hover : st.itemStartBit + chunkBits < 2 ^ 64)
    (hnone : BlockFinder.findNextDynamicBlock body (st.itemStartBit + chunkBits)
      (8 * body.length) = none) :
    ∃ st', dispatchRound BlockFinder.findNextDynamicBlock chunkBits st = .ok (.inr st') ∧
      st'.src.totalRead = total ∧ ∃ s, st'.sent = st.sent ++ [s] := by
  obtain ⟨src, hfill, hready, heof, -, hboundary⟩ := h.exists_boundary hshort
  rw [hnone] at hboundary
  have hread : src.readToEof = .ok src := by
    have hstop : ¬src.srcEof = false := by simp [heof]
    exact Loop.iterate_break (if_neg hstop)
  obtain ⟨st', hdone, htotal, -⟩ := hready.finish chunkBits
  simp only [DispatchState.finish, hread, Except.ok.injEq, Sum.inr.injEq] at hdone
  refine ⟨st', ?_, htotal, ⟨emit src st.id st.itemStartBit U64_MAX true, src.absEnd⟩, ?_⟩
  · simp only [dispatchRound, if_neg (Nat.not_le.mpr hover), hfill, hboundary, heof,
      DispatchState.finish, hread, hdone]
    rfl
  · rw [← hdone]

end Short

end Round

/-! ## The whole run -/

section Run

variable {find : Finder} {chunkBytes n : ℕ} {reads : List (List UInt8)}

/-- The state behind the first header. -/
theorem exists_ready (hreads : ∀ r ∈ reads, r ≠ [])
    (hparse : Gzip.parseHeader reads.flatten = .ok n) :
    ∃ src, (Source.new reads).fillMore.2.stripFirstHeader = .ok src ∧
      Ready (reads.flatten.drop n) reads.flatten.length ⟨src, 0, 0, []⟩ := by
  obtain ⟨hmore, -, -⟩ := Source.fillMore_spec (Source.good_new hreads) rfl
  have hreturns := Source.returns_stripFirstHeader hmore.good hmore.base_eq
  have hpending : (Source.new reads).fillMore.2.pending = reads.flatten := hmore.pending_eq
  have htotal : (Source.new reads).fillMore.2.total = reads.flatten.length := by
    rw [hmore.total_eq, Source.total, Source.new, Nat.zero_add]
  unfold Reparse.Returns at hreturns
  rw [hpending, hparse] at hreturns
  obtain ⟨src, hok, ⟨hgood, hbase, hsrc⟩, hrest, hbuf⟩ := hreturns
  refine ⟨_, hok, ⟨⟨hgood.reads_ne, hgood.eof⟩, hbase.trans (Nat.zero_div 8).symm, ?_, Or.inl rfl,
    hsrc.trans htotal⟩⟩
  have hle := (Gzip.parseHeader_bounds hbuf).2
  calc src.buf.drop n ++ src.reads.flatten
    _ = src.pending.drop n := by rw [Source.pending, List.drop_append_of_le_length hle]
    _ = (reads.flatten.drop n).drop src.base := by rw [hrest, hbase, List.drop_zero]

/-- The dispatcher reads the whole source, and its items tile the body, or a target overflows. -/
theorem dispatch_cases (hfind : Answers find) (hreads : ∀ r ∈ reads, r ≠ [])
    (hparse : Gzip.parseHeader reads.flatten = .ok n) :
    (∃ sent, dispatch find chunkBytes reads = .ok (reads.flatten.length, sent) ∧
      Tiled (reads.flatten.drop n) 0 0 sent) ∨
    (dispatch find chunkBytes reads = .error .overflow ∧
      2 ^ 64 ≤ 8 * (reads.flatten.length - n) + chunkTarget chunkBytes * 8) := by
  obtain ⟨src, hsrc, hready⟩ := exists_ready hreads hparse
  have hchunk : 0 < chunkTarget chunkBytes * 8 := by
    have := chunkTarget_pos chunkBytes
    omega
  have hfuel : todo (reads.flatten.drop n) ⟨src, 0, 0, []⟩ < dispatchRounds src := by
    have hleft := src.left_lt_rounds
    have hpending : src.pending = reads.flatten.drop n := by
      rw [hready.pending_eq, hready.base_eq, Nat.zero_div, List.drop_zero]
    unfold todo dispatchRounds
    unfold Source.rounds at hleft
    rw [hpending]
    show _ - 0 + src.left < _
    omega
  have htiles : Tiles (chunkTarget chunkBytes * 8) (reads.flatten.drop n) reads.flatten.length
      ⟨src, 0, 0, []⟩ (Loop.iterate (.failed (.deflate .outOfFuel))
        (dispatchRound find (chunkTarget chunkBytes * 8)) (dispatchRounds src) ⟨src, 0, 0, []⟩) :=
    Loop.iterate_rule _ (fun _ h => Ready.round hfind hchunk h) hready hfuel
  unfold dispatch
  simp only [hsrc]
  generalize Loop.iterate _ _ _ _ = r at htiles ⊢
  cases r with
  | error e =>
    obtain ⟨rfl, hle⟩ := htiles
    rw [List.length_drop] at hle
    exact Or.inr ⟨rfl, hle⟩
  | ok st =>
    obtain ⟨htotal, sent, hsent, htiled⟩ := htiles
    refine Or.inl ⟨sent, ?_, htiled⟩
    show Except.ok (st.src.totalRead, st.sent) = _
    rw [htotal, hsent, List.nil_append]

/-- Unless a target overflows, the dispatcher reads the whole source, and its items tile the
body. -/
theorem dispatch_tiled (hfind : Answers find) (hreads : ∀ r ∈ reads, r ≠ [])
    (hparse : Gzip.parseHeader reads.flatten = .ok n)
    (hover : dispatch find chunkBytes reads ≠ .error .overflow) :
    ∃ sent, dispatch find chunkBytes reads = .ok (reads.flatten.length, sent) ∧
      Tiled (reads.flatten.drop n) 0 0 sent := by
  rcases @dispatch_cases _ chunkBytes _ _ hfind hreads hparse with htiled | ⟨hfail, -⟩
  · exact htiled
  · exact absurd hfail hover

/-- Chunks that fit behind the body in 64 bits never overflow. -/
theorem dispatch_ne_overflow (hfind : Answers find) (hreads : ∀ r ∈ reads, r ≠ [])
    (hparse : Gzip.parseHeader reads.flatten = .ok n)
    (hsmall : 8 * (reads.flatten.length - n + chunkTarget chunkBytes) < 2 ^ 64) :
    dispatch find chunkBytes reads ≠ .error .overflow := by
  rcases @dispatch_cases _ chunkBytes _ _ hfind hreads hparse with ⟨sent, hok, -⟩ | ⟨-, hle⟩
  · rw [hok]
    exact nofun
  · omega

/-- A short body with a block behind its first target, and no second target, is sent in two
items. -/
theorem exists_dispatch_twoItems {endBit : ℕ} (hreads : ∀ r ∈ reads, r ≠ [])
    (hparse : Gzip.parseHeader reads.flatten = .ok n)
    (hfound : BlockFinder.findNextDynamicBlock (reads.flatten.drop n) (chunkTarget chunkBytes * 8)
      (8 * (reads.flatten.drop n).length) = some endBit)
    (hshort : (reads.flatten.drop n).length < SCAN_LOOKAHEAD)
    (hlast : 8 * (reads.flatten.drop n).length ≤ endBit + chunkTarget chunkBytes * 8)
    (hsmall : endBit + chunkTarget chunkBytes * 8 < 2 ^ 64) :
    ∃ s₁ s₂, dispatch BlockFinder.findNextDynamicBlock chunkBytes reads =
      .ok (reads.flatten.length, [s₁, s₂]) := by
  obtain ⟨src, hsrc, hready⟩ := exists_ready hreads hparse
  generalize reads.flatten.drop n = body at hready hfound hshort hlast
  have hpos := chunkTarget_pos chunkBytes
  rw [← Nat.zero_add (chunkTarget chunkBytes * 8)] at hfound
  obtain ⟨src₁, hround₁, hready₁⟩ := hready.round_cut (by omega)
    (Nat.lt_of_lt_of_le hshort (Nat.le_add_left _ _))
    (Nat.lt_of_le_of_lt (Nat.add_le_add_right (Nat.zero_le endBit) _) hsmall) hfound
  have hnone : BlockFinder.findNextDynamicBlock body (endBit + chunkTarget chunkBytes * 8)
      (8 * body.length) = none := by
    rw [BlockFinder.findNextDynamicBlock, if_pos (by omega)]
  obtain ⟨st', hround₂, htotal, s₂, hsent⟩ := hready₁.round_last
    (Nat.lt_of_lt_of_le hshort (Nat.le_add_left _ _)) hsmall hnone
  obtain ⟨rounds, hrounds⟩ : ∃ rounds, dispatchRounds src = rounds + 1 + 1 := ⟨_, rfl⟩
  refine ⟨⟨emit src₁ 0 0 endBit false, src₁.absEnd⟩, s₂, ?_⟩
  unfold dispatch
  simp only [hsrc]
  rw [hrounds, Loop.iterate_continue hround₁, Loop.iterate_break hround₂]
  simp only [htotal, hsent]
  rfl

/-- Behind the smallest chunk the finder of the decoder finds a block, in a body that comes in two
reads. Two items tile it. -/
theorem dispatch_tiled_blockBehindChunk :
    ∃ s₁ s₂, dispatch BlockFinder.findNextDynamicBlock 0
        [[0x1f, 0x8b, 8], [0, 0, 0, 0, 0, 0, 3] ++ BlockFinder.blockBehindChunk] =
        .ok ([[0x1f, 0x8b, 8],
          [0, 0, 0, 0, 0, 0, 3] ++ BlockFinder.blockBehindChunk].flatten.length,
          [s₁, s₂]) ∧
      Tiled BlockFinder.blockBehindChunk 0 0 [s₁, s₂] := by
  have hlength := BlockFinder.length_blockBehindChunk
  have hfound := BlockFinder.findNextDynamicBlock_blockBehindChunk
  generalize BlockFinder.blockBehindChunk = body at hlength hfound ⊢
  have hreads : ∀ r ∈ [[0x1f, 0x8b, 8], [0, 0, 0, 0, 0, 0, 3] ++ body], r ≠ [] := by simp
  have hbytes : [[0x1f, 0x8b, 8], [0, 0, 0, 0, 0, 0, 3] ++ body].flatten =
      [0x1f, 0x8b, 8, 0, 0, 0, 0, 0, 0, 3] ++ body := by simp
  have hheader : Gzip.parseHeader [0x1f, 0x8b, 8, 0, 0, 0, 0, 0, 0, 3] = .ok 10 := by decide
  have hparse : Gzip.parseHeader [[0x1f, 0x8b, 8], [0, 0, 0, 0, 0, 0, 3] ++ body].flatten =
      .ok 10 := by
    rw [hbytes]
    exact Gzip.parseHeader_local hheader (List.prefix_append _ _)
  have hdrop : [[0x1f, 0x8b, 8], [0, 0, 0, 0, 0, 0, 3] ++ body].flatten.drop 10 = body := by
    rw [hbytes]
    rfl
  have hchunk : chunkTarget 0 = 65536 := by decide
  obtain ⟨s₁, s₂, hdispatch⟩ := @exists_dispatch_twoItems 0 10 _ 524288 hreads hparse
    (by rwa [hdrop, hchunk, hlength]) (by rw [hdrop, hlength]; decide)
    (by rw [hdrop, hchunk, hlength]; decide) (by rw [hchunk]; decide)
  obtain ⟨sent, hok, htiled⟩ := dispatch_tiled answers_findNextDynamicBlock hreads hparse
    (by rw [hdispatch]; exact nofun)
  rw [hdispatch, Except.ok.injEq, Prod.mk.injEq] at hok
  obtain ⟨-, rfl⟩ := hok
  rw [hdrop] at htiled
  exact ⟨s₁, s₂, hdispatch, htiled⟩

end Run

end Streaming

end Pipeline

end RustyRapidgzip
