import RustyRapidgzip.Pipeline.Parallel
import RustyRapidgzip.Pipeline.Walk

/-!
# The BGZF decoder

Dispatch walks over the blocks of a file and hands their batches to a pool of workers. Each
worker decodes the blocks of a batch one after the other into one buffer. The serializer puts
the batches in order and sends them to the sink. What follows the blocks is decoded as an
ordinary sequence of members, after all threads have been joined.
-/

namespace RustyRapidgzip

open Crc Threads Transition

namespace Pipeline

namespace Bgzf

/-- The bytes of a range. -/
def slice (file : List UInt8) (range : ℕ × ℕ) : List UInt8 :=
  (file.drop range.1).take (range.2 - range.1)

/-- Decode the blocks of a batch from a member's number on, all into one buffer. -/
def decodeRanges (crc : Checksum) (file : List UInt8) :
    ℕ → List (ℕ × ℕ) → List UInt8 → Except Error (List UInt8)
  | _, [], out => .ok out
  | member, range :: ranges, out =>
    match Gzip.decodeOneIndexedFast crc (slice file range) out member with
    | .error e => .error (.gzip e)
    | .ok (_, out) => decodeRanges crc file ((member + 1) % 2 ^ 32) ranges out

/-- What a worker sends for a batch. -/
def decodeBatch (crc : Checksum) (file : List UInt8) (b : Batch) :
    Except Error (ℕ × List UInt8) :=
  match decodeRanges crc file b.firstMember b.ranges [] with
  | .error e => .error e
  | .ok out => .ok (b.id, out)

/-- One call of the decoder. `scan` stands for the search for block boundaries in the body of what
follows the blocks; it always finds the body's start. -/
structure Config where
  crc : Checksum
  build : Build
  file : List UInt8
  chunkSizeBytes : ℕ
  numThreads : ℕ
  numThreads_pos : 0 < numThreads
  resolveThreads : ℕ
  resolveThreads_pos : 0 < resolveThreads
  maxInFlight : Option ℕ
  scan : List UInt8 → List ℕ
  scan_ne_nil : ∀ body, scan body ≠ []

/-- Where the serializer is: it waits for the next batch, sends one, has left its loop, has shut
down the cap and joins the threads, or has joined them. -/
inductive SerializerPhase where
  | drain
  | deliver (bytes : List UInt8)
  | closing
  | joining
  | joined

/-- The variables of the serializer. -/
structure Serializer where
  phase : SerializerPhase
  pending : List (ℕ × List UInt8)
  nextId : ℕ
  totalUncompressed : ℕ
  chunksSent : ℕ
  lastErr : Option Error

/-- The threads, the channels and the sink. -/
structure State (c : Config) where
  front : Front c.numThreads Batch (Except Error (ℕ × List UInt8))
  serializer : Serializer
  sink : Mmap.Sink

variable (c : Config)

/-- The batches that dispatch emits. -/
def Config.batches : List Batch := (walk c.file c.chunkSizeBytes).1.batches

/-- The capacity of each channel. -/
def Config.capacity : ℕ := c.numThreads * 2

/-- A worker decodes a batch. -/
def Config.work (b : Batch) (o : Except Error (ℕ × List UInt8)) : Prop :=
  o = decodeBatch c.crc c.file b

/-- The state in which all threads have been started. -/
def init : State c where
  front := Front.start c.numThreads (Except Error (ℕ × List UInt8)) c.batches
    (c.maxInFlight.map InflightCap.new)
  serializer := ⟨.drain, [], 0, 0, 0, none⟩
  sink := ⟨true, []⟩

/-- The error of a sink that nobody reads from. -/
def sinkClosedError : Error := .io "sink closed"

/-- A step of one of the threads. The caller keeps a receiver of the channel to the workers and the
receiver of their results until it returns. -/
inductive Step : State c → State c → Prop
  | front {s : State c} {front : Front c.numThreads Batch (Except Error (ℕ × List UInt8))}
      (hfront : s.front.Step c.work c.capacity c.capacity True True front) :
      Step s { s with front := front }
  | recvBatch {s : State c} {p : ℕ × List UInt8} {rest : List (Except Error (ℕ × List UInt8))}
      (hphase : s.serializer.phase = .drain)
      (hnext : Reorder.remove Prod.fst s.serializer.nextId s.serializer.pending = none)
      (hresult : s.front.pool.output = .ok p :: rest) :
      Step s
        { s with
          front := { s.front with pool := s.front.pool.leave rest }
          serializer :=
            { s.serializer with pending := Reorder.insert Prod.fst p s.serializer.pending } }
  | recvErr {s : State c} {e : Error} {rest : List (Except Error (ℕ × List UInt8))}
      (hphase : s.serializer.phase = .drain)
      (hnext : Reorder.remove Prod.fst s.serializer.nextId s.serializer.pending = none)
      (hresult : s.front.pool.output = .error e :: rest) :
      Step s
        { s with
          front := { s.front with pool := s.front.pool.leave rest }
          serializer := { s.serializer with phase := .closing, lastErr := some e } }
  | recvEnd {s : State c} (hphase : s.serializer.phase = .drain)
      (hnext : Reorder.remove Prod.fst s.serializer.nextId s.serializer.pending = none)
      (hresult : s.front.pool.output = []) (hstopped : s.front.pool.Stopped) :
      Step s { s with serializer := { s.serializer with phase := .closing } }
  | take {s : State c} {p : ℕ × List UInt8} {rest : List (ℕ × List UInt8)}
      (hphase : s.serializer.phase = .drain)
      (hnext : Reorder.remove Prod.fst s.serializer.nextId s.serializer.pending = some (p, rest)) :
      Step s
        { s with
          serializer :=
            { s.serializer with
              phase := .deliver p.2
              pending := rest
              totalUncompressed := s.serializer.totalUncompressed + p.2.length } }
  | deliver {s : State c} {bytes : List UInt8} (hphase : s.serializer.phase = .deliver bytes)
      (hsink : s.sink.isOpen = true) :
      Step s
        { front := { s.front with slots := s.front.slots.release }
          serializer :=
            { s.serializer with
              phase := .drain
              nextId := s.serializer.nextId + 1
              chunksSent := s.serializer.chunksSent + 1 }
          sink := { s.sink with received := s.sink.received ++ [bytes] } }
  | sinkClosed {s : State c} {bytes : List UInt8} (hphase : s.serializer.phase = .deliver bytes)
      (hsink : s.sink.isOpen = false) :
      Step s
        { s with
          front := { s.front with slots := s.front.slots.release }
          serializer :=
            { s.serializer with phase := .closing, lastErr := some sinkClosedError } }
  | shutdown {s : State c} (hphase : s.serializer.phase = .closing) :
      Step s
        { s with
          front := { s.front with slots := s.front.slots.close }
          serializer := { s.serializer with phase := .joining } }
  | join {s : State c} (hphase : s.serializer.phase = .joining) (hfront : s.front.Finished) :
      Step s { s with serializer := { s.serializer with phase := .joined } }

/-- The consumer drops its receiver. -/
inductive Hangup : State c → State c → Prop
  | hangup {s : State c} : Hangup s { s with sink := { s.sink with isOpen := false } }

variable {c}

/-- What dispatch returns: where the blocks end, and the error of the walk. -/
def State.dispatched (s : State c) : ℕ × Option Error :=
  match s.front.feeder with
  | .stopped (b :: _) => b.left
  | _ => ((walk c.file c.chunkSizeBytes).1.pos, (walk c.file c.chunkSizeBytes).2)

/-- The error that the call returns before it comes to what follows the blocks. -/
def State.failure (s : State c) : Option Error := s.serializer.lastErr.or s.dispatched.2

variable (c)

/-- The call of the parallel member decoder for the body at an offset. -/
def Config.member (hthreads : 2 ≤ c.numThreads) (bodyOffset : ℕ) : Mmap.Config :=
  memberConfig c.build c.crc (c.file.drop bodyOffset) (c.scan (c.file.drop bodyOffset))
    ⟨c.numThreads, hthreads, c.resolveThreads, c.resolveThreads_pos, c.maxInFlight⟩

/-- The same call over unbounded outputs. -/
def Config.unboundedMember (hthreads : 2 ≤ c.numThreads) (bodyOffset : ℕ) : Mmap.Config :=
  Unbounded.memberConfig c.crc (c.file.drop bodyOffset) (c.scan (c.file.drop bodyOffset))
    ⟨c.numThreads, hthreads, c.resolveThreads, c.resolveThreads_pos, c.maxInFlight⟩

/-- A call of the decoder: its threads run, the parallel member decoder runs for what follows
the blocks, or the call has returned. -/
inductive Call where
  | blocks (s : State c)
  | member (s : State c) (hthreads : 2 ≤ c.numThreads) (bodyOffset : ℕ)
      (m : Mmap.State (c.member hthreads bodyOffset))
  | returned (received : List (List UInt8)) (r : Except Error (ℕ × ℕ))

/-- A step of a call whose consumer stays. With one thread the serial decoder takes what follows
the blocks; what it sends before it fails is left open. -/
inductive Call.Step : Call c → Call c → Prop
  | blocks {s s' : State c} (hstep : Bgzf.Step c s s') : Step (.blocks s) (.blocks s')
  | fail {s : State c} {e : Error} (hphase : s.serializer.phase = .joined)
      (hfailure : s.failure = some e) :
      Step (.blocks s) (.returned s.sink.received (.error e))
  | done {s : State c} (hphase : s.serializer.phase = .joined) (hfailure : s.failure = none)
      (hend : c.file.length ≤ s.dispatched.1) :
      Step (.blocks s) (.returned s.sink.received
        (.ok (s.serializer.totalUncompressed, s.serializer.chunksSent)))
  | badHeader {s : State c} {e : Gzip.GzipError} (hphase : s.serializer.phase = .joined)
      (hfailure : s.failure = none) (hmore : s.dispatched.1 < c.file.length)
      (hheader : Gzip.parseHeader (c.file.drop s.dispatched.1) = .error e) :
      Step (.blocks s) (.returned s.sink.received (.error (.gzip e)))
  | serial {s : State c} {headerLen uc consumed ch : ℕ} {sent : List (List UInt8)}
      (hphase : s.serializer.phase = .joined) (hfailure : s.failure = none)
      (hmore : s.dispatched.1 < c.file.length)
      (hheader : Gzip.parseHeader (c.file.drop s.dispatched.1) = .ok headerLen)
      (hthreads : c.numThreads = 1)
      (hserial : serialDecodeMember c.crc c.file (s.dispatched.1 + headerLen) c.chunkSizeBytes =
        .ok ((uc, consumed, ch), sent)) :
      Step (.blocks s) (.returned (s.sink.received ++ sent)
        (.ok (s.serializer.totalUncompressed + uc, s.serializer.chunksSent + ch)))
  | serialErr {s : State c} {headerLen : ℕ} {e : Error} {sent : List (List UInt8)}
      (hphase : s.serializer.phase = .joined) (hfailure : s.failure = none)
      (hmore : s.dispatched.1 < c.file.length)
      (hheader : Gzip.parseHeader (c.file.drop s.dispatched.1) = .ok headerLen)
      (hthreads : c.numThreads = 1)
      (hserial : serialDecodeMember c.crc c.file (s.dispatched.1 + headerLen) c.chunkSizeBytes =
        .error e) :
      Step (.blocks s) (.returned (s.sink.received ++ sent) (.error e))
  | start {s : State c} {headerLen : ℕ} (hphase : s.serializer.phase = .joined)
      (hfailure : s.failure = none) (hmore : s.dispatched.1 < c.file.length)
      (hheader : Gzip.parseHeader (c.file.drop s.dispatched.1) = .ok headerLen)
      (hthreads : 2 ≤ c.numThreads) :
      Step (.blocks s) (.member s hthreads (s.dispatched.1 + headerLen) (Mmap.init _))
  | member {s : State c} {hthreads : 2 ≤ c.numThreads} {bodyOffset : ℕ}
      {m m' : Mmap.State (c.member hthreads bodyOffset)} (hrunning : ∀ r, ¬m.Returned r)
      (hstep : Mmap.Step _ m m') :
      Step (.member s hthreads bodyOffset m) (.member s hthreads bodyOffset m')
  | returnErr {s : State c} {hthreads : 2 ≤ c.numThreads} {bodyOffset : ℕ}
      {m : Mmap.State (c.member hthreads bodyOffset)} {e : Error}
      (hreturned : m.Returned (.error e)) :
      Step (.member s hthreads bodyOffset m)
        (.returned (s.sink.received ++ m.sink.received) (.error e))
  | returnOk {s : State c} {hthreads : 2 ≤ c.numThreads} {bodyOffset : ℕ}
      {m : Mmap.State (c.member hthreads bodyOffset)} {uc consumed ch failures : ℕ}
      (hreturned : m.Returned (.ok (uc, consumed, ch, failures))) :
      Step (.member s hthreads bodyOffset m)
        (.returned (s.sink.received ++ m.sink.received)
          (.ok (s.serializer.totalUncompressed + uc, s.serializer.chunksSent + ch)))

end Bgzf

end Pipeline

end RustyRapidgzip
