import RustyRapidgzip.Lib.Front
import RustyRapidgzip.Lib.Reorder
import RustyRapidgzip.Lib.Transition
import RustyRapidgzip.Pipeline.Serial

/-!
# The parallel member decoder

Dispatch hands the chunks to a pool of workers. Stage A puts their results in order, checks
that each one starts where the one before ended, and hands them with the tail they refer to
to the resolve pool. The output stage puts the resolved chunks in order, checks the
trailers, and sends the bytes to the sink. The threads are modelled as a step relation: a
step is one operation on a channel, the semaphore or the sink, with the computation that
follows it.
-/

namespace RustyRapidgzip

open Crc Threads

namespace Pipeline

/-- The cap on the chunks in flight. -/
abbrev InflightCap : Type := Semaphore

/-- A cap, of at least one chunk. -/
def InflightCap.new (max : ℕ) : InflightCap := ⟨0, Nat.max max 1, false⟩

/-- A worker's output for a work item. -/
structure WorkOutcome where
  id : ℕ
  startBit : ℕ
  endBitHint : ℕ
  result : Except Error WorkResult

/-- A chunk with the tail its markers refer to. -/
structure ResolveJob where
  id : ℕ
  chunk : SpeculativeChunk
  prevTail : List UInt8
  finalBlock : Bool
  memberBoundaries : List MemberBoundary

/-- A chunk whose markers are resolved, with the checksum and the length of each of its pieces
and of the member that goes on after it. -/
structure ResolveDone where
  id : ℕ
  chunk : SpeculativeChunk
  finalBlock : Bool
  memberBoundaries : List MemberBoundary
  pieceCrcs : List (ℕ × ℕ)
  tailCrc : ℕ
  tailLen : ℕ

/-- Checksums and lengths of the pieces of a chunk, and of what follows the last boundary. -/
def pieceCrcs (crc : Checksum) (bytes : List UInt8) (cursor : ℕ) :
    List MemberBoundary → List (ℕ × ℕ) × (ℕ × ℕ)
  | [] => ([], (crc.hash (bytes.drop cursor), bytes.length - cursor))
  | mb :: boundaries =>
    let r := pieceCrcs crc bytes mb.byteOffsetInChunk boundaries
    ((crc.hash ((bytes.drop cursor).take (mb.byteOffsetInChunk - cursor)),
      mb.byteOffsetInChunk - cursor) :: r.1, r.2)

/-- What the resolve pool does with a job. -/
def resolveJob (crc : Checksum) (job : ResolveJob) : Except Error ResolveDone :=
  match resolveMarkers job.chunk job.prevTail with
  | .error e => .error (.deflate e)
  | .ok chunk =>
    let r := pieceCrcs crc chunk.bytes 0 job.memberBoundaries
    .ok
      { id := job.id
        chunk := chunk
        finalBlock := job.finalBlock
        memberBoundaries := job.memberBoundaries
        pieceCrcs := r.1
        tailCrc := r.2.1
        tailLen := r.2.2 }

/-- The member the output stage is in: its checksum and length so far, and its number. -/
structure OpenMember where
  curCrc : ℕ
  curUncompressed : ℕ
  memberIdx : ℕ

/-- No byte of the first member yet. -/
def OpenMember.new (crc : Checksum) : OpenMember := ⟨crc.hash [], 0, 0⟩

/-- Add the pieces of a chunk to the members they complete, and check these. -/
def stitchPieces (crc : Checksum) :
    List ((ℕ × ℕ) × MemberBoundary) → OpenMember → Except Error OpenMember
  | [], m => .ok m
  | ((pcrc, plen), mb) :: pieces, m => do
    let curCrc := crc.combine m.curCrc pcrc plen
    let curUncompressed := m.curUncompressed + plen
    validateMember mb.crcExpected mb.isizeExpected curCrc curUncompressed m.memberIdx
      mb.trailerInputByte
    stitchPieces crc pieces ⟨crc.hash [], 0, m.memberIdx + 1⟩

/-- Add a chunk to the members. -/
def stitch (crc : Checksum) (d : ResolveDone) (m : OpenMember) : Except Error OpenMember := do
  let m ← stitchPieces crc (d.pieceCrcs.zip d.memberBoundaries) m
  .ok
    { m with
      curCrc := crc.combine m.curCrc d.tailCrc d.tailLen
      curUncompressed := m.curUncompressed + d.tailLen }

namespace Mmap

/-- One call of the decoder: the work items, which are numbered in order, what decoding one may
give, the sizes of the pools and the cap. -/
structure Config where
  crc : Checksum
  bodyLen : ℕ
  items : List WorkItem
  items_id : ∀ (i : ℕ) (item : WorkItem), items[i]? = some item → item.id = i
  decode : WorkItem → Except Error WorkResult → Prop
  decode_total : ∀ item : WorkItem, ∃ r, decode item r
  decode_id : ∀ (item : WorkItem) (r : WorkResult), decode item (.ok r) → r.id = item.id
  numThreads : ℕ
  two_le_numThreads : 2 ≤ numThreads
  resolveThreads : ℕ
  resolveThreads_pos : 0 < resolveThreads
  maxInFlight : Option ℕ

/-- Where stage A is: it waits for the next result, hands on a job or an error, or has ended. -/
inductive StageAPhase where
  | drain
  | sendJob (job : ResolveJob)
  | sendErr (e : Error)
  | stopped

/-- The variables of stage A. The results it has accepted are a history variable. -/
structure StageA where
  phase : StageAPhase
  reorder : List WorkOutcome
  nextId : ℕ
  prevTail : List UInt8
  expectedStart : ℕ
  specFailures : ℕ
  accepted : List WorkResult

/-- Where the output stage is: it waits for the next chunk, sends one, has left its loop, has
dropped its receiver, has shut down the cap and joins the threads, or has returned. -/
inductive OutputPhase where
  | drain
  | deliver (bytes : List UInt8) (final : Bool)
  | leave
  | closing
  | joining
  | returned (r : Except Error (ℕ × ℕ × ℕ × ℕ))

/-- The output stage still holds its receiver. -/
def OutputPhase.Listening : OutputPhase → Prop
  | .drain | .deliver _ _ | .leave => True
  | .closing | .joining | .returned _ => False

/-- The variables of the output stage. -/
structure Output where
  phase : OutputPhase
  reorder : List ResolveDone
  nextId : ℕ
  totalUc : ℕ
  sent : ℕ
  finalByte : Option ℕ
  lastErr : Option Error
  sinkClosed : Bool
  member : OpenMember

/-- The channel to the consumer, which may drop its receiver. -/
structure Sink where
  isOpen : Bool
  received : List (List UInt8)

/-- The threads, the channels and the sink. -/
structure State (c : Config) where
  front : Front c.numThreads WorkItem WorkOutcome
  stageA : StageA
  resolvers : Pool c.resolveThreads ResolveJob (Except Error ResolveDone)
  output : Output
  sink : Sink

variable (c : Config)

/-- The capacity of each channel. -/
def Config.capacity : ℕ := c.numThreads * 2

/-- A worker decodes an item. -/
def Config.work (item : WorkItem) (o : WorkOutcome) : Prop :=
  ∃ r, c.decode item r ∧ o = ⟨item.id, item.startBit, item.endBitHint, r⟩

/-- The resolve pool resolves a job. -/
def Config.resolve (job : ResolveJob) (r : Except Error ResolveDone) : Prop :=
  r = resolveJob c.crc job

/-- The state in which all threads have been started. -/
def init : State c where
  front := Front.start c.numThreads WorkOutcome c.items (c.maxInFlight.map InflightCap.new)
  stageA := ⟨if 0 < c.items.length then .drain else .stopped, [], 0, [], 0, 0, []⟩
  resolvers := Pool.start c.resolveThreads ResolveJob (Except Error ResolveDone)
  output := ⟨.drain, [], 0, 0, 0, none, none, false, .new c.crc⟩
  sink := ⟨true, []⟩

/-- What stage A goes on with: a result that starts where it has to, or what decoding the chunk
again from there gives. `again` counts the second decoding. -/
def Config.Checks (expectedStart : ℕ) (o : WorkOutcome) (r : Except Error WorkResult)
    (again : ℕ) : Prop :=
  ((∃ res, o.result = .ok res) ∧ o.startBit = expectedStart ∧ r = o.result ∧ again = 0) ∨
    (¬((∃ res, o.result = .ok res) ∧ o.startBit = expectedStart) ∧
      c.decode ⟨o.id, expectedStart, o.endBitHint⟩ r ∧ again = 1)

/-- Stage A accepts a result and turns it into a job. -/
def StageA.accept (a : StageA) (rest : List WorkOutcome) (res : WorkResult) (again : ℕ) :
    StageA where
  phase := .sendJob ⟨res.id, res.chunk, a.prevTail, res.finalBlock, res.memberBoundaries⟩
  reorder := rest
  nextId := a.nextId
  prevTail := buildPrevTailFast res.chunk a.prevTail
  expectedStart := res.actualEndBit
  specFailures := a.specFailures + again
  accepted := a.accepted ++ [res]

/-- The output stage takes a chunk, up to the checks of its members. -/
def Output.take (out : Output) (d : ResolveDone) (rest : List ResolveDone) : Output :=
  { out with
    reorder := rest
    totalUc := out.totalUc + d.chunk.bytes.length
    finalByte :=
      if d.finalBlock then
        match d.memberBoundaries.getLast? with
        | some mb => some (mb.trailerInputByte + 8)
        | none => out.finalByte
      else out.finalByte }

/-- What the call returns after the threads have been joined. -/
def Output.result (out : Output) (bodyLen specFailures : ℕ) :
    Except Error (ℕ × ℕ × ℕ × ℕ) :=
  if out.sinkClosed then .ok (out.totalUc, bodyLen, out.sent, specFailures)
  else
    match out.lastErr with
    | some e => .error e
    | none =>
      match out.finalByte with
      | none => .error (.io "parallel decode produced no final block")
      | some bc => .ok (out.totalUc, bc, out.sent, specFailures)

/-- A step of one of the threads. -/
inductive Step : State c → State c → Prop
  | front {s : State c} {front : Front c.numThreads WorkItem WorkOutcome}
      (hfront : s.front.Step c.work c.capacity c.capacity False (s.stageA.phase ≠ .stopped) front) :
      Step s { s with front := front }
  | accept {s : State c} {o : WorkOutcome} {rest : List WorkOutcome} {res : WorkResult} {again : ℕ}
      (hphase : s.stageA.phase = .drain)
      (hnext : Reorder.remove WorkOutcome.id s.stageA.nextId s.stageA.reorder = some (o, rest))
      (hchecks : c.Checks s.stageA.expectedStart o (.ok res) again) :
      Step s { s with stageA := s.stageA.accept rest res again }
  | refuse {s : State c} {o : WorkOutcome} {rest : List WorkOutcome} {e : Error} {again : ℕ}
      (hphase : s.stageA.phase = .drain)
      (hnext : Reorder.remove WorkOutcome.id s.stageA.nextId s.stageA.reorder = some (o, rest))
      (hchecks : c.Checks s.stageA.expectedStart o (.error e) again) :
      Step s
        { s with
          stageA :=
            { s.stageA with
              phase := .sendErr e
              reorder := rest
              specFailures := s.stageA.specFailures + again } }
  | recvOutcome {s : State c} {o : WorkOutcome} {rest : List WorkOutcome}
      (hphase : s.stageA.phase = .drain)
      (hnext : Reorder.remove WorkOutcome.id s.stageA.nextId s.stageA.reorder = none)
      (hresult : s.front.pool.output = o :: rest) :
      Step s
        { s with
          front := { s.front with pool := s.front.pool.leave rest }
          stageA :=
            { s.stageA with
              phase := if s.stageA.nextId < c.items.length then .drain else .stopped
              reorder := Reorder.insert WorkOutcome.id o s.stageA.reorder } }
  | workerClosed {s : State c} (hphase : s.stageA.phase = .drain)
      (hnext : Reorder.remove WorkOutcome.id s.stageA.nextId s.stageA.reorder = none)
      (hresult : s.front.pool.output = []) (hstopped : s.front.pool.Stopped) :
      Step s { s with stageA := { s.stageA with phase := .sendErr (.io "worker channel closed") } }
  | sendJob {s : State c} {job : ResolveJob} (hphase : s.stageA.phase = .sendJob job)
      (hlistening : ¬s.resolvers.Stopped) (hroom : s.resolvers.input.length < c.capacity) :
      Step s
        { s with
          stageA :=
            { s.stageA with
              phase := if job.finalBlock then .stopped else .drain
              nextId := s.stageA.nextId + 1 }
          resolvers := s.resolvers.put job }
  | jobLost {s : State c} {job : ResolveJob} (hphase : s.stageA.phase = .sendJob job)
      (hstopped : s.resolvers.Stopped) :
      Step s { s with stageA := { s.stageA with phase := .stopped } }
  | sendErr {s : State c} {e : Error} (hphase : s.stageA.phase = .sendErr e)
      (hlistening : s.output.phase.Listening) (hroom : s.resolvers.output.length < c.capacity) :
      Step s
        { s with
          stageA := { s.stageA with phase := .stopped }
          resolvers := s.resolvers.emit (.error e) }
  | errLost {s : State c} {e : Error} (hphase : s.stageA.phase = .sendErr e)
      (hclosed : ¬s.output.phase.Listening) :
      Step s { s with stageA := { s.stageA with phase := .stopped } }
  | resolve {s : State c}
      {resolvers : Pool c.resolveThreads ResolveJob (Except Error ResolveDone)}
      (hresolvers : s.resolvers.Step c.resolve c.capacity
        (s.stageA.phase ≠ .stopped) s.output.phase.Listening resolvers) :
      Step s { s with resolvers := resolvers }
  | take {s : State c} {d : ResolveDone} {rest : List ResolveDone} {m : OpenMember}
      (hphase : s.output.phase = .drain)
      (hnext : Reorder.remove ResolveDone.id s.output.nextId s.output.reorder = some (d, rest))
      (hstitch : stitch c.crc d s.output.member = .ok m) :
      Step s
        { s with
          output :=
            { s.output.take d rest with
              phase := .deliver d.chunk.bytes d.finalBlock
              member := m } }
  | reject {s : State c} {d : ResolveDone} {rest : List ResolveDone} {e : Error}
      (hphase : s.output.phase = .drain)
      (hnext : Reorder.remove ResolveDone.id s.output.nextId s.output.reorder = some (d, rest))
      (hstitch : stitch c.crc d s.output.member = .error e) :
      Step s { s with output := { s.output.take d rest with phase := .leave, lastErr := some e } }
  | finish {s : State c} (hphase : s.output.phase = .drain)
      (hnext : Reorder.remove ResolveDone.id s.output.nextId s.output.reorder = none)
      (hend : c.items.length ≤ s.output.nextId) :
      Step s { s with output := { s.output with phase := .leave } }
  | recvDone {s : State c} {d : ResolveDone} {rest : List (Except Error ResolveDone)}
      (hphase : s.output.phase = .drain)
      (hnext : Reorder.remove ResolveDone.id s.output.nextId s.output.reorder = none)
      (hmore : s.output.nextId < c.items.length) (hdone : s.resolvers.output = .ok d :: rest) :
      Step s
        { s with
          resolvers := s.resolvers.leave rest
          output := { s.output with reorder := Reorder.insert ResolveDone.id d s.output.reorder } }
  | recvErr {s : State c} {e : Error} {rest : List (Except Error ResolveDone)}
      (hphase : s.output.phase = .drain)
      (hnext : Reorder.remove ResolveDone.id s.output.nextId s.output.reorder = none)
      (hmore : s.output.nextId < c.items.length) (hdone : s.resolvers.output = .error e :: rest) :
      Step s
        { s with
          resolvers := s.resolvers.leave rest
          output := { s.output with phase := .leave, lastErr := some e } }
  | resolveClosed {s : State c} (hphase : s.output.phase = .drain)
      (hnext : Reorder.remove ResolveDone.id s.output.nextId s.output.reorder = none)
      (hmore : s.output.nextId < c.items.length) (hdone : s.resolvers.output = [])
      (hstageA : s.stageA.phase = .stopped) (hresolvers : s.resolvers.Stopped) :
      Step s
        { s with
          output :=
            { s.output with phase := .leave, lastErr := some (.io "resolve channel closed") } }
  | deliver {s : State c} {bytes : List UInt8} {final : Bool}
      (hphase : s.output.phase = .deliver bytes final) (hsink : s.sink.isOpen = true) :
      Step s
        { s with
          front := { s.front with slots := s.front.slots.release }
          output :=
            { s.output with
              phase := if final then .leave else .drain
              nextId := s.output.nextId + 1
              sent := s.output.sent + 1 }
          sink := { s.sink with received := s.sink.received ++ [bytes] } }
  | sinkClosed {s : State c} {bytes : List UInt8} {final : Bool}
      (hphase : s.output.phase = .deliver bytes final) (hsink : s.sink.isOpen = false) :
      Step s
        { s with
          front := { s.front with slots := s.front.slots.release }
          output := { s.output with phase := .leave, sinkClosed := true } }
  | dropDone {s : State c} (hphase : s.output.phase = .leave) :
      Step s { s with output := { s.output with phase := .closing } }
  | shutdown {s : State c} (hphase : s.output.phase = .closing) :
      Step s
        { s with
          front := { s.front with slots := s.front.slots.close }
          output := { s.output with phase := .joining } }
  | join {s : State c} (hphase : s.output.phase = .joining)
      (hstageA : s.stageA.phase = .stopped) (hresolvers : s.resolvers.Stopped)
      (hfront : s.front.Finished) :
      Step s
        { s with
          output :=
            { s.output with
              phase := .returned (s.output.result c.bodyLen s.stageA.specFailures) } }

/-- The consumer drops its receiver. -/
inductive Hangup : State c → State c → Prop
  | hangup {s : State c} : Hangup s { s with sink := { s.sink with isOpen := false } }

/-- The call has returned. -/
def State.Returned {c : Config} (s : State c) (r : Except Error (ℕ × ℕ × ℕ × ℕ)) : Prop :=
  s.output.phase = .returned r

end Mmap

end Pipeline

end RustyRapidgzip
