import RustyRapidgzip.Lib.Pool
import RustyRapidgzip.Lib.Reorder
import RustyRapidgzip.Lib.Transition
import RustyRapidgzip.Pipeline.Dispatch
import RustyRapidgzip.Pipeline.Mmap

/-!
# The streaming decoder

The dispatcher cuts a stream into items that own their bytes. As in the decoder for mapped
files the items go through a pool of workers, stage A, a resolve pool and the output stage. The
cap on the chunks in flight is a channel of tokens: the dispatcher takes one before it cuts an
item, and the output stage puts one back when the chunk has been handed to the sink.
-/

namespace RustyRapidgzip

open Crc LsbBits Stop Threads

namespace Pipeline

namespace Streaming

/-- A decoded item, whose markers may be resolved or not. -/
structure DecodeResult where
  id : ℕ
  chunk : SpeculativeChunk
  finalBlock : Bool
  memberBoundaries : List MemberBoundary
  deriving DecidableEq, Repr

/-! ## Decoding an item -/

/-- The window of the format. -/
def WINDOW : ℕ := 32 * 1024

/-- The variables of the loop over the members of an item. -/
structure ItemState (γ : Type) where
  pos : ℕ
  chunk : γ
  memberBoundaries : List MemberBoundary

/-- After a member's final block, with so many bytes in the chunk: record its trailer, and go on
with the next member, or end the item. The end of the slice is the end of the stream only in the
final region. -/
def endItemMember {γ : Type} (item : Item) (len : ℕ) (s : ItemState γ) :
    Except Error (ItemState γ ⊕ (Bool × ItemState γ)) :=
  let trailerByte := (s.pos + 7) / 8
  if item.bytes.length < trailerByte + 8 then .error (.gzip .truncated)
  else
    let boundary : MemberBoundary :=
      { byteOffsetInChunk := len
        crcExpected := leNat ((item.bytes.drop trailerByte).take 4)
        isizeExpected := leNat ((item.bytes.drop (trailerByte + 4)).take 4)
        trailerInputByte := item.baseByte + trailerByte }
    let s := { s with memberBoundaries := s.memberBoundaries ++ [boundary] }
    let afterTrailer := trailerByte + 8
    if item.isFinalRegion ∧ item.bytes.length ≤ afterTrailer then .ok (.inr (true, s))
    else if item.bytes.length ≤ afterTrailer then .ok (.inr (false, s))
    else do
      let headerLen ← liftGzip (Gzip.parseHeader (item.bytes.drop afterTrailer))
      .ok (.inl { s with pos := (afterTrailer + headerLen) * 8 })

section Vector

variable (build : Build) (capacity : ℕ → ℕ)

/-- One round of the loop over the members. It ends with the flag of the stream's end. -/
def itemRound (item : Item) (scratch : List ℕ) (s : ItemState VecChunk) :
    Except (Stop Error) (ItemState VecChunk ⊕ (Bool × ItemState VecChunk)) :=
  if item.endBitHint ≤ s.pos then .ok (.inr (false, s))
  else do
    let ((endBit, hitBfinal), chunk) ← Stop.mapError .deflate
      (Speculative.decodeUntilU16 build (capacity s.memberBoundaries.length) item.bytes s.pos
        item.endBitHint s.chunk scratch)
    let s := { s with pos := endBit, chunk := chunk }
    if hitBfinal then lift (endItemMember item chunk.bytes.bytes.length s)
    else .ok (.inr (false, s))

/-- The bytes that are reserved for an item: three for each byte of its span, or four windows if
it has no bound. -/
def Item.reserveBytes (item : Item) : ℕ :=
  if item.endBitHint ≠ U64_MAX ∧ item.startBit < item.endBitHint then
    min ((item.endBitHint - item.startBit) / 8 * 3) (64 * 1024 * 1024)
  else WINDOW * 4

/-- Decode an item with a worker's buffer. The vector has the given capacity when the cells of a
member, which are numbered, are in it, or more. Each member has a bit, which bounds the rounds. -/
def decodeItem (item : Item) (scratch : List ℕ) : Except (Stop Error) DecodeResult := do
  let (finalBlock, s) ← Loop.iterate (.error (.deflate .outOfFuel))
    (itemRound build capacity item scratch) (8 * item.bytes.length + 1)
    ⟨item.startBit, VecChunk.fresh item.reserveBytes, []⟩
  .ok
    { id := item.id
      chunk := s.chunk.unbounded
      finalBlock := finalBlock
      memberBoundaries := s.memberBoundaries }

end Vector

namespace Unbounded

/-- One round of the loop over the members, over an unbounded output. -/
def itemRound (item : Item) (scratch : List ℕ) (s : ItemState SpeculativeChunk) :
    Except Error (ItemState SpeculativeChunk ⊕ (Bool × ItemState SpeculativeChunk)) :=
  if item.endBitHint ≤ s.pos then .ok (.inr (false, s))
  else do
    let ((endBit, hitBfinal), chunk) ← liftDeflate
      (Unbounded.decodeUntilU16 item.bytes s.pos item.endBitHint s.chunk scratch)
    let s := { s with pos := endBit, chunk := chunk }
    if hitBfinal then endItemMember item chunk.bytes.length s else .ok (.inr (false, s))

/-- Decode an item over an unbounded output. -/
def decodeItem (item : Item) (scratch : List ℕ) : Except Error DecodeResult := do
  let (finalBlock, s) ← Loop.iterate (.deflate .outOfFuel) (itemRound item scratch)
    (8 * item.bytes.length + 1) ⟨item.startBit, ⟨[], []⟩, []⟩
  .ok
    { id := item.id
      chunk := s.chunk
      finalBlock := finalBlock
      memberBoundaries := s.memberBoundaries }

/-- What a worker makes of an item over an unbounded output: its buffer may hold anything. -/
def Work (item : Item) (r : Except Error DecodeResult) : Prop :=
  ∃ scratch, decodeItem item scratch = r

end Unbounded

/-- What a worker makes of an item: its buffer may hold anything, and the vector may have any
capacity. A worker that runs off its vector may hand on anything. -/
def Work (build : Build) (item : Item) (r : Except Error DecodeResult) : Prop :=
  (∃ capacity scratch, decodeItem build capacity item scratch = lift r) ∨
    ((∃ capacity scratch, decodeItem build capacity item scratch = .error .fault) ∧
      ∀ d, r = .ok d → d.id = item.id)

/-- What the resolve pool does with a job. -/
def resolveJob (job : ResolveJob) : Except Error DecodeResult :=
  match resolveMarkers job.chunk job.prevTail with
  | .error e => .error (.deflate e)
  | .ok chunk =>
    .ok
      { id := job.id
        chunk := chunk
        finalBlock := job.finalBlock
        memberBoundaries := job.memberBoundaries }

/-- What a resolver makes of a job. -/
def Resolve (job : ResolveJob) (r : Except Error DecodeResult) : Prop := r = resolveJob job

/-- The member that the output stage is in: what its checksum was updated with, and its number. -/
structure CurMember where
  hashed : List UInt8
  memberIdx : ℕ

/-- Add the pieces of a chunk to the members that they complete, and check these; the rest of the
chunk belongs to the next member. -/
def checkPieces (crc : Checksum) (bytes : List UInt8) :
    ℕ → List MemberBoundary → CurMember → Except Error CurMember
  | cursor, [], m => .ok { m with hashed := m.hashed ++ bytes.drop cursor }
  | cursor, mb :: boundaries, m => do
    let piece := (bytes.drop cursor).take (mb.byteOffsetInChunk - cursor)
    let hashed := m.hashed ++ piece
    validateMember mb.crcExpected mb.isizeExpected (crc.hash hashed) hashed.length m.memberIdx
      mb.trailerInputByte
    checkPieces crc bytes mb.byteOffsetInChunk boundaries ⟨[], m.memberIdx + 1⟩

/-! ## The threads -/

/-- One call of the decoder. -/
structure Config where
  crc : Checksum
  build : Build
  find : Finder
  chunkBytes : ℕ
  reads : List (List UInt8)
  numThreads : ℕ

/-- Where the dispatcher is: before its first read, at the top of its loop, waiting for a token
for an item, sending it, or it has returned. After an item it goes on in the left state, or
returns in the right one. -/
inductive DispatchPhase where
  | start
  | look (st : DispatchState)
  | recvToken (item : Item) (next : DispatchState ⊕ DispatchState)
  | send (item : Item) (next : DispatchState ⊕ DispatchState)
  | returned (r : Except DispatchError ℕ)

/-- The dispatcher. The number of tokens it has taken is a history variable. -/
structure Dispatcher where
  phase : DispatchPhase
  taken : ℕ

/-- The dispatcher has returned, and with it the receiver of the tokens is gone. -/
def Dispatcher.Returned (d : Dispatcher) : Prop := ∃ r, d.phase = .returned r

/-- The state that the dispatcher goes on in, or returns in. -/
def nextState (next : DispatchState ⊕ DispatchState) : DispatchState := next.elim id id

/-- Where the dispatcher goes on after it has sent an item. -/
def afterSend : DispatchState ⊕ DispatchState → DispatchPhase
  | .inl st => .look st
  | .inr st => .returned (.ok st.src.totalRead)

/-- Where stage A is. -/
inductive StageAPhase where
  | drain
  | sendJob (job : ResolveJob)
  | sendErr (e : Error)
  | stopped

/-- The variables of stage A. -/
structure StageA where
  phase : StageAPhase
  reorder : List DecodeResult
  nextId : ℕ
  prevTail : List UInt8
  closed : Bool

/-- Where the output stage is: it waits for the next chunk, sends one, puts a token back, has
left its loop, drops its ends of the channels one after the other, joins the threads, or has
returned. -/
inductive OutputPhase where
  | drain
  | deliver (bytes : List UInt8) (final : Bool)
  | sendToken (sinkOk final : Bool)
  | leave
  | dropTokenTx
  | dropDoneRx
  | joining
  | returned (r : Except Error (ℕ × ℕ × ℕ))

/-- The output stage still holds the receiver of the resolved chunks. -/
def OutputPhase.Listening : OutputPhase → Prop
  | .joining | .returned _ => False
  | _ => True

/-- The output stage is in its loop. -/
def OutputPhase.Looping : OutputPhase → Prop
  | .drain | .deliver _ _ | .sendToken _ _ => True
  | _ => False

/-- The output stage has not begun to tear the threads down. -/
def OutputPhase.BeforeTeardown : OutputPhase → Prop
  | .drain | .deliver _ _ | .sendToken _ _ | .leave => True
  | _ => False

/-- The variables of the output stage. The number of chunks whose token it has put back is a
history variable. -/
structure Output where
  phase : OutputPhase
  reorder : List DecodeResult
  nextId : ℕ
  totalUc : ℕ
  chunksSent : ℕ
  member : CurMember
  outErr : Option Error
  closed : Bool
  putBack : ℕ

/-- The channel of the tokens: how many are in it, and whether it has a sender. -/
structure TokenChannel where
  tokens : ℕ
  hasSender : Bool

/-- The cap on the chunks in flight. -/
def Config.inflightCap (c : Config) : ℕ := max (c.numThreads * 2) 16

/-- The threads of the resolve pool. -/
def Config.resolveThreads (c : Config) : ℕ := min (max c.numThreads 1) 4

/-- The threads, the channels and the sink. -/
structure State (c : Config) where
  dispatcher : Dispatcher
  abort : Bool
  token : TokenChannel
  workers : Pool c.numThreads Item (Except Error DecodeResult)
  stageA : StageA
  resolvers : Pool c.resolveThreads ResolveJob (Except Error DecodeResult)
  output : Output
  sink : Mmap.Sink

variable (c : Config)

/-- The state in which the token channel is full and all threads have been started. -/
def init : State c where
  dispatcher := ⟨.start, 0⟩
  abort := false
  token := ⟨c.inflightCap, true⟩
  workers := Pool.start c.numThreads Item (Except Error DecodeResult)
  stageA := ⟨.drain, [], 0, [], false⟩
  resolvers := Pool.start c.resolveThreads ResolveJob (Except Error DecodeResult)
  output := ⟨.drain, [], 0, 0, 0, ⟨[], 0⟩, none, false, 0⟩
  sink := ⟨true, []⟩

/-- A round of the dispatcher, up to where it takes a token. -/
def Config.round (st : DispatchState) : Except DispatchError (DispatchState ⊕ DispatchState) :=
  dispatchRound c.find (chunkTarget c.chunkBytes * 8) st

/-- The output stage has put a token back; without a sink it leaves its loop. -/
def Output.afterToken (out : Output) (sinkOk final : Bool) : Output :=
  if sinkOk then
    { out with
      phase := if final then .leave else .drain
      nextId := out.nextId + 1
      chunksSent := out.chunksSent + 1
      putBack := out.putBack + 1 }
  else { out with phase := .leave, putBack := out.putBack + 1 }

/-- What the call returns after the threads have been joined. -/
def Output.result (out : Output) (dispatched : Except DispatchError ℕ) :
    Except Error (ℕ × ℕ × ℕ) :=
  match out.outErr with
  | some e => .error e
  | none =>
    match dispatched with
    | .error (.failed e) => .error e
    | .error .overflow => .error (.io "dispatcher panicked")
    | .ok compressed => .ok (out.totalUc, out.chunksSent, compressed)

/-- A step of the dispatcher: the rounds of its loop, with a token before each item. A read may
fail in any round. A target that does not fit 64 bits stops the dispatcher where overflow is
checked; elsewhere it wraps around, and the round may cut anywhere. -/
inductive DispatchStep : State c → State c → Prop
  | start {s : State c} {src : Source} (hphase : s.dispatcher.phase = .start)
      (hstrip : (Source.new c.reads).fillMore.2.stripFirstHeader = .ok src) :
      DispatchStep s
        { s with dispatcher := { s.dispatcher with phase := .look ⟨src, 0, 0, []⟩ } }
  | badHeader {s : State c} {e : Error} (hphase : s.dispatcher.phase = .start)
      (hstrip : (Source.new c.reads).fillMore.2.stripFirstHeader = .error e) :
      DispatchStep s
        { s with dispatcher := { s.dispatcher with phase := .returned (.error (.failed e)) } }
  | readFails {s : State c} {msg : String}
      (hphase : s.dispatcher.phase = .start ∨ ∃ st, s.dispatcher.phase = .look st) :
      DispatchStep s
        { s with
          dispatcher := { s.dispatcher with phase := .returned (.error (.failed (.io msg))) } }
  | abort {s : State c} {st : DispatchState} (hphase : s.dispatcher.phase = .look st)
      (habort : s.abort = true) :
      DispatchStep s
        { s with dispatcher := { s.dispatcher with phase := .returned (.ok st.src.totalRead) } }
  | more {s : State c} {st st' : DispatchState} (hphase : s.dispatcher.phase = .look st)
      (habort : s.abort = false) (hround : c.round st = .ok (.inl st'))
      (hsent : st'.sent = st.sent) :
      DispatchStep s { s with dispatcher := { s.dispatcher with phase := .look st' } }
  | cut {s : State c} {st : DispatchState} {next : DispatchState ⊕ DispatchState} {sent : Sent}
      (hphase : s.dispatcher.phase = .look st) (habort : s.abort = false)
      (hround : c.round st = .ok next) (hsent : (nextState next).sent = st.sent ++ [sent]) :
      DispatchStep s
        { s with dispatcher := { s.dispatcher with phase := .recvToken sent.item next } }
  | fail {s : State c} {st : DispatchState} {e : DispatchError}
      (hphase : s.dispatcher.phase = .look st) (habort : s.abort = false)
      (hround : c.round st = .error e) :
      DispatchStep s
        { s with dispatcher := { s.dispatcher with phase := .returned (.error e) } }
  | wrapMore {s : State c} {st st' : DispatchState} (hphase : s.dispatcher.phase = .look st)
      (habort : s.abort = false) (hround : c.round st = .error .overflow)
      (hid : st'.id = st.id) :
      DispatchStep s { s with dispatcher := { s.dispatcher with phase := .look st' } }
  | wrapCut {s : State c} {st : DispatchState} {item : Item}
      {next : DispatchState ⊕ DispatchState} (hphase : s.dispatcher.phase = .look st)
      (habort : s.abort = false) (hround : c.round st = .error .overflow)
      (hid : item.id = st.id) (hnext : ∀ st', next = .inl st' → st'.id = st.id + 1) :
      DispatchStep s { s with dispatcher := { s.dispatcher with phase := .recvToken item next } }
  | recvToken {s : State c} {item : Item} {next : DispatchState ⊕ DispatchState}
      (hphase : s.dispatcher.phase = .recvToken item next) (htoken : 0 < s.token.tokens) :
      DispatchStep s
        { s with
          dispatcher := ⟨.send item next, s.dispatcher.taken + 1⟩
          token := { s.token with tokens := s.token.tokens - 1 } }
  | tokenClosed {s : State c} {item : Item} {next : DispatchState ⊕ DispatchState}
      (hphase : s.dispatcher.phase = .recvToken item next) (hempty : s.token.tokens = 0)
      (hclosed : s.token.hasSender = false) :
      DispatchStep s
        { s with
          dispatcher :=
            { s.dispatcher with phase := .returned (.ok (nextState next).src.totalRead) } }
  | send {s : State c} {item : Item} {next : DispatchState ⊕ DispatchState}
      (hphase : s.dispatcher.phase = .send item next) (hlistening : ¬s.workers.Stopped)
      (hroom : s.workers.input.length < c.numThreads) :
      DispatchStep s
        { s with
          dispatcher := { s.dispatcher with phase := afterSend next }
          workers := s.workers.put item }
  | lost {s : State c} {item : Item} {next : DispatchState ⊕ DispatchState}
      (hphase : s.dispatcher.phase = .send item next) (hstopped : s.workers.Stopped) :
      DispatchStep s
        { s with
          dispatcher :=
            { s.dispatcher with
              phase := .returned (.error (.failed (.io "decode workers gone"))) } }

/-- A step of stage A. When all workers are done it drains what is buffered, in order. -/
inductive StageAStep : State c → State c → Prop
  | accept {s : State c} {res : DecodeResult} {rest : List DecodeResult}
      (hphase : s.stageA.phase = .drain)
      (hnext : Reorder.remove DecodeResult.id s.stageA.nextId s.stageA.reorder =
        some (res, rest)) :
      StageAStep s
        { s with
          stageA :=
            { s.stageA with
              phase := .sendJob
                ⟨res.id, res.chunk, s.stageA.prevTail, res.finalBlock, res.memberBoundaries⟩
              reorder := rest
              prevTail := buildPrevTailFast res.chunk s.stageA.prevTail } }
  | recvResult {s : State c} {res : DecodeResult} {rest : List (Except Error DecodeResult)}
      (hphase : s.stageA.phase = .drain)
      (hnext : Reorder.remove DecodeResult.id s.stageA.nextId s.stageA.reorder = none)
      (hopen : s.stageA.closed = false) (hresult : s.workers.output = .ok res :: rest) :
      StageAStep s
        { s with
          workers := s.workers.leave rest
          stageA :=
            { s.stageA with reorder := Reorder.insert DecodeResult.id res s.stageA.reorder } }
  | recvErr {s : State c} {e : Error} {rest : List (Except Error DecodeResult)}
      (hphase : s.stageA.phase = .drain)
      (hnext : Reorder.remove DecodeResult.id s.stageA.nextId s.stageA.reorder = none)
      (hopen : s.stageA.closed = false) (hresult : s.workers.output = .error e :: rest) :
      StageAStep s
        { s with
          workers := s.workers.leave rest
          stageA := { s.stageA with phase := .sendErr e } }
  | workersDone {s : State c} (hphase : s.stageA.phase = .drain)
      (hnext : Reorder.remove DecodeResult.id s.stageA.nextId s.stageA.reorder = none)
      (hopen : s.stageA.closed = false) (hresult : s.workers.output = [])
      (hstopped : s.workers.Stopped) :
      StageAStep s { s with stageA := { s.stageA with closed := true } }
  | finish {s : State c} (hphase : s.stageA.phase = .drain)
      (hnext : Reorder.remove DecodeResult.id s.stageA.nextId s.stageA.reorder = none)
      (hclosed : s.stageA.closed = true) :
      StageAStep s { s with stageA := { s.stageA with phase := .stopped } }
  | sendJob {s : State c} {job : ResolveJob} (hphase : s.stageA.phase = .sendJob job)
      (hlistening : ¬s.resolvers.Stopped)
      (hroom : s.resolvers.input.length < c.numThreads * 2) :
      StageAStep s
        { s with
          stageA :=
            { s.stageA with
              phase := if job.finalBlock then .stopped else .drain
              nextId := s.stageA.nextId + 1 }
          resolvers := s.resolvers.put job }
  | jobLost {s : State c} {job : ResolveJob} (hphase : s.stageA.phase = .sendJob job)
      (hstopped : s.resolvers.Stopped) :
      StageAStep s { s with stageA := { s.stageA with phase := .stopped } }
  | sendErr {s : State c} {e : Error} (hphase : s.stageA.phase = .sendErr e)
      (hlistening : s.output.phase.Listening)
      (hroom : s.resolvers.output.length < c.numThreads * 2) :
      StageAStep s
        { s with
          stageA := { s.stageA with phase := .stopped }
          resolvers := s.resolvers.emit (.error e) }
  | errLost {s : State c} {e : Error} (hphase : s.stageA.phase = .sendErr e)
      (hclosed : ¬s.output.phase.Listening) :
      StageAStep s { s with stageA := { s.stageA with phase := .stopped } }

/-- A step of the output stage. A token has room in its channel, or no receiver any more. -/
inductive OutputStep : State c → State c → Prop
  | take {s : State c} {d : DecodeResult} {rest : List DecodeResult} {m : CurMember}
      (hphase : s.output.phase = .drain)
      (hnext : Reorder.remove DecodeResult.id s.output.nextId s.output.reorder = some (d, rest))
      (hcheck : checkPieces c.crc d.chunk.bytes 0 d.memberBoundaries s.output.member = .ok m) :
      OutputStep s
        { s with
          output :=
            { s.output with
              phase := .deliver d.chunk.bytes d.finalBlock
              reorder := rest
              totalUc := s.output.totalUc + d.chunk.bytes.length
              member := m } }
  | reject {s : State c} {d : DecodeResult} {rest : List DecodeResult} {e : Error}
      (hphase : s.output.phase = .drain)
      (hnext : Reorder.remove DecodeResult.id s.output.nextId s.output.reorder = some (d, rest))
      (hcheck : checkPieces c.crc d.chunk.bytes 0 d.memberBoundaries s.output.member =
        .error e) :
      OutputStep s
        { s with output := { s.output with phase := .leave, reorder := rest, outErr := some e } }
  | finish {s : State c} (hphase : s.output.phase = .drain)
      (hnext : Reorder.remove DecodeResult.id s.output.nextId s.output.reorder = none)
      (hclosed : s.output.closed = true) :
      OutputStep s { s with output := { s.output with phase := .leave } }
  | recvDone {s : State c} {d : DecodeResult} {rest : List (Except Error DecodeResult)}
      (hphase : s.output.phase = .drain)
      (hnext : Reorder.remove DecodeResult.id s.output.nextId s.output.reorder = none)
      (hopen : s.output.closed = false) (hdone : s.resolvers.output = .ok d :: rest) :
      OutputStep s
        { s with
          resolvers := s.resolvers.leave rest
          output :=
            { s.output with reorder := Reorder.insert DecodeResult.id d s.output.reorder } }
  | recvErr {s : State c} {e : Error} {rest : List (Except Error DecodeResult)}
      (hphase : s.output.phase = .drain)
      (hnext : Reorder.remove DecodeResult.id s.output.nextId s.output.reorder = none)
      (hopen : s.output.closed = false) (hdone : s.resolvers.output = .error e :: rest) :
      OutputStep s
        { s with
          resolvers := s.resolvers.leave rest
          output := { s.output with phase := .leave, outErr := some e } }
  | resolversDone {s : State c} (hphase : s.output.phase = .drain)
      (hnext : Reorder.remove DecodeResult.id s.output.nextId s.output.reorder = none)
      (hopen : s.output.closed = false) (hdone : s.resolvers.output = [])
      (hstageA : s.stageA.phase = .stopped) (hresolvers : s.resolvers.Stopped) :
      OutputStep s { s with output := { s.output with closed := true } }
  | deliver {s : State c} {bytes : List UInt8} {final : Bool}
      (hphase : s.output.phase = .deliver bytes final) (hsink : s.sink.isOpen = true) :
      OutputStep s
        { s with
          output := { s.output with phase := .sendToken true final }
          sink := { s.sink with received := s.sink.received ++ [bytes] } }
  | sinkClosed {s : State c} {bytes : List UInt8} {final : Bool}
      (hphase : s.output.phase = .deliver bytes final) (hsink : s.sink.isOpen = false) :
      OutputStep s { s with output := { s.output with phase := .sendToken false final } }
  | sendToken {s : State c} {sinkOk final : Bool}
      (hphase : s.output.phase = .sendToken sinkOk final) (hlistening : ¬s.dispatcher.Returned)
      (hroom : s.token.tokens < c.inflightCap) :
      OutputStep s
        { s with
          token := { s.token with tokens := s.token.tokens + 1 }
          output := s.output.afterToken sinkOk final }
  | tokenLost {s : State c} {sinkOk final : Bool}
      (hphase : s.output.phase = .sendToken sinkOk final) (hreturned : s.dispatcher.Returned) :
      OutputStep s { s with output := s.output.afterToken sinkOk final }
  | teardown {s : State c} (hphase : s.output.phase = .leave) :
      OutputStep s { s with abort := true, output := { s.output with phase := .dropTokenTx } }
  | dropTokenTx {s : State c} (hphase : s.output.phase = .dropTokenTx) :
      OutputStep s
        { s with
          token := { s.token with hasSender := false }
          output := { s.output with phase := .dropDoneRx } }
  | dropDoneRx {s : State c} (hphase : s.output.phase = .dropDoneRx) :
      OutputStep s { s with output := { s.output with phase := .joining } }
  | join {s : State c} {r : Except DispatchError ℕ} (hphase : s.output.phase = .joining)
      (hstageA : s.stageA.phase = .stopped) (hresolvers : s.resolvers.Stopped)
      (hworkers : s.workers.Stopped) (hdispatcher : s.dispatcher.phase = .returned r) :
      OutputStep s { s with output := { s.output with phase := .returned (s.output.result r) } }

/-- A step of one of the threads. -/
inductive Step : State c → State c → Prop
  | dispatch {s s' : State c} (hstep : DispatchStep c s s') : Step s s'
  | work {s : State c} {workers : Pool c.numThreads Item (Except Error DecodeResult)}
      (hworkers : s.workers.Step (Work c.build) (c.numThreads * 2) (¬s.dispatcher.Returned)
        (s.stageA.phase ≠ .stopped) workers) :
      Step s { s with workers := workers }
  | stageA {s s' : State c} (hstep : StageAStep c s s') : Step s s'
  | resolve {s : State c}
      {resolvers : Pool c.resolveThreads ResolveJob (Except Error DecodeResult)}
      (hresolvers : s.resolvers.Step Resolve (c.numThreads * 2) (s.stageA.phase ≠ .stopped)
        s.output.phase.Listening resolvers) :
      Step s { s with resolvers := resolvers }
  | output {s s' : State c} (hstep : OutputStep c s s') : Step s s'

/-- The consumer drops its receiver. -/
inductive Hangup : State c → State c → Prop
  | hangup {s : State c} : Hangup s { s with sink := { s.sink with isOpen := false } }

/-- A run of the threads and of the consumer. -/
def Move (s s' : State c) : Prop := Step c s s' ∨ Hangup c s s'

end Streaming

end Pipeline

end RustyRapidgzip
