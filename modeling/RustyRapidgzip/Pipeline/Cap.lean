import RustyRapidgzip.Lib.Ledger
import RustyRapidgzip.Pipeline.BgzfCall

/-!
# The cap on the chunks in flight

Dispatch takes a slot before it sends a chunk, and the output stage gives one back when the
chunk has been handed to the sink, or when the sink was closed. Whatever else happens, the cap
counts the chunks in between, and these are numbered from the one that the output stage waits
for.
-/

namespace RustyRapidgzip

open Threads Transition

namespace Pipeline

/-- What a pipeline does with its cap. -/
structure CapView (α : Type) where
  feeder : Feeder α
  admitted : ℕ
  slots : Slots
  nextId : ℕ
  sending : Bool
  received : List (List UInt8)

namespace CapView

variable {α : Type} {v v' : CapView α} {id : α → ℕ} {max : ℕ} {es : List SlotEvent}

/-- The end of sending the next chunk. The slot is given back, whether or not the sink took the
chunk. -/
def sendEvents (v v' : CapView α) : List SlotEvent :=
  if v.sending && !v'.sending then
    (if v.received.length < v'.received.length then [.deliver v.nextId] else []) ++ [.release]
  else []

/-- What happens to the cap in a step. -/
def events (id : α → ℕ) (v v' : CapView α) : List SlotEvent :=
  ((v.feeder.admits v'.feeder).map fun a => .acquire (id a)) ++ v.sendEvents v'

/-- The cap counts the chunks in flight. -/
def Exact (max : ℕ) (v : CapView α) (es : List SlotEvent) : Prop :=
  Ledger max v.nextId v.admitted v.slots es

/-- A step leaves the cap exact, and gives back only slots that are in use. -/
def Keeps (id : α → ℕ) (max : ℕ) (es : List SlotEvent) (v v' : CapView α) : Prop :=
  v'.Exact max (es ++ v.events id v') ∧
    (.release ∈ v.events id v' → v.slots.GivesBack v'.slots)

/-- Events that keep the books of the cap, and give back no more than was taken. -/
theorem keeps_of_events {fs : List SlotEvent} (hevents : v.events id v' = fs)
    (h : v'.Exact max (es ++ fs)) (hback : .release ∈ fs → v.slots.GivesBack v'.slots) :
    Keeps id max es v v' := by
  rw [Keeps, hevents]
  exact ⟨h, hback⟩

/-- Dispatch or a worker makes a step. -/
theorem keeps_front (hsending : v'.sending = v.sending)
    (h : v'.Exact max (es ++ (v.feeder.admits v'.feeder).map fun a => .acquire (id a))) :
    Keeps id max es v v' := by
  have hnone : v.sendEvents v' = [] := by
    rw [sendEvents, hsending]
    cases v.sending <;> rfl
  refine keeps_of_events ?_ h (by simp)
  rw [events, hnone, List.append_nil]

/-- A step of another thread, in which nothing has been sent. -/
theorem keeps_quiet (hfeeder : v'.feeder = v.feeder)
    (hquiet : v.sending = false ∨ v'.sending = v.sending) (h : v'.Exact max es) :
    Keeps id max es v v' := by
  have hnone : v.sendEvents v' = [] := by
    rw [sendEvents]
    rcases hquiet with hquiet | hquiet
    · rw [hquiet]
      rfl
    · rw [hquiet]
      cases v.sending <;> rfl
  have hevents : v.events id v' = [] := by
    rw [events, hnone, hfeeder, Feeder.admits_self]
    rfl
  exact keeps_of_events hevents (by rwa [List.append_nil]) (by simp)

/-- The number of slots given back, while as many chunks have been sent. -/
theorem Exact.released_eq (h : v.Exact max es) (hcounts : v.slots.Counts v.admitted v.nextId) :
    SlotEvent.released es = v.nextId := by
  obtain ⟨g, hg, -, hcount, -⟩ := h.slots_eq
  have := (hcounts g hg).1
  omega

/-- The sink has taken the next chunk. -/
theorem keeps_sent (h : v.Exact max es) (hlt : v.nextId < v.admitted)
    (hcounts : v.slots.Counts v.admitted v.nextId) (hfeeder : v'.feeder = v.feeder)
    (hadmitted : v'.admitted = v.admitted) (hslots : v'.slots = v.slots.release)
    (hnextId : v'.nextId = v.nextId + 1) (hsending : v.sending = true)
    (hsending' : v'.sending = false) (hreceived : v.received.length < v'.received.length) :
    Keeps id max es v v' := by
  have hreleased := h.released_eq hcounts
  have hsame : SlotEvent.released (es ++ [.deliver v.nextId]) = v.nextId := by
    rw [SlotEvent.released_append, hreleased]
    rfl
  obtain ⟨hexact, hback⟩ := (Ledger.deliver h hlt).release (by omega)
  have hevents : v.events id v' = [.deliver v.nextId] ++ [.release] := by
    rw [events, sendEvents, hfeeder, Feeder.admits_self, hsending, hsending', if_pos hreceived]
    rfl
  refine keeps_of_events hevents ?_ fun _ => hslots ▸ hback
  rw [Exact, hnextId, hadmitted, hslots, ← List.append_assoc]
  exact hexact

/-- The sink was closed. -/
theorem keeps_closed (h : v.Exact max es) (hlt : v.nextId < v.admitted)
    (hcounts : v.slots.Counts v.admitted v.nextId) (hfeeder : v'.feeder = v.feeder)
    (hadmitted : v'.admitted = v.admitted) (hslots : v'.slots = v.slots.release)
    (hnextId : v'.nextId = v.nextId) (hsending : v.sending = true)
    (hsending' : v'.sending = false) (hreceived : v'.received = v.received) :
    Keeps id max es v v' := by
  have hreleased := h.released_eq hcounts
  obtain ⟨hexact, hback⟩ := Ledger.release h (by omega)
  have hevents : v.events id v' = [.release] := by
    rw [events, sendEvents, hfeeder, Feeder.admits_self, hsending, hsending', hreceived,
      if_neg (lt_irrefl _)]
    rfl
  refine keeps_of_events hevents ?_ fun _ => hslots ▸ hback
  rw [Exact, hnextId, hadmitted, hslots]
  exact hexact

end CapView

/-- A cap of at least one chunk, of which none is in flight. -/
theorem ledger_inflightCap {max : ℕ} {cap : Option ℕ} (hcap : cap = some max) (hmax : 1 ≤ max) :
    Ledger max 0 0 (cap.map InflightCap.new) [] := by
  subst hcap
  have hnew : InflightCap.new max = ⟨0, max, false⟩ := by
    rw [InflightCap.new, show Nat.max max 1 = max from Nat.max_eq_left hmax]
  rw [Option.map_some, hnew]
  exact ledger_start

namespace Mmap

/-- The output stage is sending a chunk. -/
def OutputPhase.sending : OutputPhase → Bool
  | .deliver _ _ => true
  | _ => false

/-- Dispatch, the output stage and the sink. -/
def State.capView {c : Config} (s : State c) : CapView WorkItem :=
  ⟨s.front.feeder, s.front.admitted, s.front.slots, s.output.nextId, s.output.phase.sending,
    s.sink.received⟩

/-- What happens to the cap in a step. -/
def capEvents {c : Config} (s s' : State c) : List SlotEvent :=
  s.capView.events WorkItem.id s'.capView

variable {c : Config} {s s' : State c} {max : ℕ} {es : List SlotEvent}

/-- A chunk that is being sent has a slot. -/
theorem Inv.nextId_lt (hinv : Inv s) {bytes : List UInt8} {final : Bool}
    (hphase : s.output.phase = .deliver bytes final) :
    s.output.nextId < s.front.admitted ∧
      s.front.slots.Counts s.front.admitted s.output.nextId := by
  have hloop : s.output.phase.Looping := by simp [hphase, OutputPhase.Looping]
  have hposition := hinv.output.position_le hloop
  have hadmitted := hinv.sourced.admitted
  simp only [Output.position, hphase] at hposition
  exact ⟨by omega, (hinv.live hloop).counts⟩

/-- Every step keeps the books of the cap. -/
theorem Step.keeps (hinv : Inv s) (h : Step c s s') (hexact : s.capView.Exact max es) :
    CapView.Keeps WorkItem.id max es s.capView s'.capView := by
  have hquiet {phase : OutputPhase} (hphase : s.output.phase = phase)
      (hnone : phase.sending = false) {b : Bool} :
      s.capView.sending = false ∨ b = s.capView.sending := Or.inl (by rw [← hnone, ← hphase]; rfl)
  cases h with
  | front hfront =>
    exact CapView.keeps_front rfl
      (hfront.ledger WorkItem.id c.items_id hinv.sourced.tracks hexact)
  | @deliver bytes final hphase _ =>
    obtain ⟨hlt, hcounts⟩ := hinv.nextId_lt hphase
    have hsending : s.capView.sending = true := by simp only [State.capView, hphase]; rfl
    refine CapView.keeps_sent hexact hlt hcounts rfl rfl rfl rfl hsending ?_ ?_
    · cases final <;> rfl
    · simp [State.capView]
  | sinkClosed hphase _ =>
    obtain ⟨hlt, hcounts⟩ := hinv.nextId_lt hphase
    have hsending : s.capView.sending = true := by simp only [State.capView, hphase]; rfl
    exact CapView.keeps_closed hexact hlt hcounts rfl rfl rfl rfl hsending rfl rfl
  | shutdown hphase => exact CapView.keeps_quiet rfl (hquiet hphase rfl) (Ledger.close hexact)
  | take hphase _ _ => exact CapView.keeps_quiet rfl (hquiet hphase rfl) hexact
  | reject hphase _ _ => exact CapView.keeps_quiet rfl (hquiet hphase rfl) hexact
  | finish hphase _ _ => exact CapView.keeps_quiet rfl (hquiet hphase rfl) hexact
  | recvErr hphase _ _ _ => exact CapView.keeps_quiet rfl (hquiet hphase rfl) hexact
  | resolveClosed hphase _ _ _ _ _ => exact CapView.keeps_quiet rfl (hquiet hphase rfl) hexact
  | dropDone hphase => exact CapView.keeps_quiet rfl (hquiet hphase rfl) hexact
  | join hphase _ _ _ => exact CapView.keeps_quiet rfl (hquiet hphase rfl) hexact
  | _ => exact CapView.keeps_quiet rfl (Or.inr rfl) hexact

/-- A step or a consumer that hangs up keeps the books of the cap. -/
theorem Move.keeps (hinv : Inv s) (h : Move c s s') (hexact : s.capView.Exact max es) :
    CapView.Keeps WorkItem.id max es s.capView s'.capView := by
  rcases h with hstep | hhangup
  · exact hstep.keeps hinv hexact
  · cases hhangup
    exact CapView.keeps_quiet rfl (Or.inr rfl) hexact

end Mmap

namespace Bgzf

/-- The serializer is sending a batch. -/
def SerializerPhase.sending : SerializerPhase → Bool
  | .deliver _ => true
  | _ => false

/-- Dispatch, the serializer and the sink. -/
def State.capView {c : Config} (s : State c) : CapView Batch :=
  ⟨s.front.feeder, s.front.admitted, s.front.slots, s.serializer.nextId,
    s.serializer.phase.sending, s.sink.received⟩

/-- What happens to the cap in a step. -/
def capEvents {c : Config} (s s' : State c) : List SlotEvent :=
  s.capView.events Batch.id s'.capView

variable {c : Config} {s s' : State c} {max : ℕ} {es : List SlotEvent}

/-- A batch that is being sent has a slot. -/
theorem Inv.nextId_lt (hinv : Inv s) {bytes : List UInt8}
    (hphase : s.serializer.phase = .deliver bytes) :
    s.serializer.nextId < s.front.admitted ∧
      s.front.slots.Counts s.front.admitted s.serializer.nextId := by
  have hlive := hinv.live (by simp [hphase, SerializerPhase.Looping])
  have hstands := hinv.stands
  rw [State.Stands, hphase] at hstands
  exact ⟨hstands.2.1, hlive.counts⟩

/-- Every step keeps the books of the cap. -/
theorem Step.keeps (hinv : Inv s) (h : Step c s s') (hexact : s.capView.Exact max es) :
    CapView.Keeps Batch.id max es s.capView s'.capView := by
  have hquiet {phase : SerializerPhase} (hphase : s.serializer.phase = phase)
      (hnone : phase.sending = false) {b : Bool} :
      s.capView.sending = false ∨ b = s.capView.sending := Or.inl (by rw [← hnone, ← hphase]; rfl)
  cases h with
  | front hfront =>
    exact CapView.keeps_front rfl (hfront.ledger Batch.id c.batches_id hinv.tracks hexact)
  | deliver hphase _ =>
    obtain ⟨hlt, hcounts⟩ := hinv.nextId_lt hphase
    have hsending : s.capView.sending = true := by simp only [State.capView, hphase]; rfl
    exact CapView.keeps_sent hexact hlt hcounts rfl rfl rfl rfl hsending rfl
      (by simp [State.capView])
  | sinkClosed hphase _ =>
    obtain ⟨hlt, hcounts⟩ := hinv.nextId_lt hphase
    have hsending : s.capView.sending = true := by simp only [State.capView, hphase]; rfl
    exact CapView.keeps_closed hexact hlt hcounts rfl rfl rfl rfl hsending rfl rfl
  | recvBatch hphase _ _ => exact CapView.keeps_quiet rfl (hquiet hphase rfl) hexact
  | recvErr hphase _ _ => exact CapView.keeps_quiet rfl (hquiet hphase rfl) hexact
  | recvEnd hphase _ _ _ => exact CapView.keeps_quiet rfl (hquiet hphase rfl) hexact
  | take hphase _ => exact CapView.keeps_quiet rfl (hquiet hphase rfl) hexact
  | shutdown hphase => exact CapView.keeps_quiet rfl (hquiet hphase rfl) (Ledger.close hexact)
  | join hphase _ => exact CapView.keeps_quiet rfl (hquiet hphase rfl) hexact

/-- A step or a consumer that hangs up keeps the books of the cap. -/
theorem Move.keeps (hinv : Inv s) (h : Move c s s') (hexact : s.capView.Exact max es) :
    CapView.Keeps Batch.id max es s.capView s'.capView := by
  rcases h with hstep | hhangup
  · exact hstep.keeps hinv hexact
  · cases hhangup
    exact CapView.keeps_quiet rfl (Or.inr rfl) hexact

end Bgzf

/-! ## Runs -/

/-- As many slots are in use as `acquire` has given to chunks and the output stage has not given
back, and never more than `max`. The chunks that have taken a slot and were not delivered are
numbered from the one on that the output stage waits for. -/
structure CapCounts {α : Type} (max : ℕ) (v : CapView α) (es : List SlotEvent) : Prop where
  in_flight : ∃ g, v.slots = some g ∧ g.max = max ∧
    g.inFlight + SlotEvent.released es = (SlotEvent.admitted es).length ∧ g.inFlight ≤ max
  outstanding : SlotEvent.outstanding es =
    List.range' v.nextId ((SlotEvent.admitted es).length - v.nextId)

/-- Books that are exact have the counts. -/
theorem CapView.Exact.counts {α : Type} {max : ℕ} {v : CapView α} {es : List SlotEvent}
    (h : v.Exact max es) : CapCounts max v es :=
  ⟨Ledger.in_flight h, Ledger.outstanding_eq h⟩

/-- After every run of the member decoder the books are exact. -/
theorem Mmap.exact_of_trace {c : Mmap.Config} {s : Mmap.State c} {max : ℕ} {es : List SlotEvent}
    (hcap : c.maxInFlight = some max) (hmax : 1 ≤ max)
    (h : Trace (Mmap.Move c) Mmap.capEvents (Mmap.init c) es s) : s.capView.Exact max es :=
  h.invariant (fun es s => s.capView.Exact max es)
    (fun _ _ _ hreach hexact hmove => (hmove.keeps (Mmap.inv_of_reaches hreach) hexact).1)
    (ledger_inflightCap hcap hmax)

/-- After every run of the block decoder the books are exact. -/
theorem Bgzf.exact_of_trace {c : Bgzf.Config} {s : Bgzf.State c} {max : ℕ} {es : List SlotEvent}
    (hcap : c.maxInFlight = some max) (hmax : 1 ≤ max)
    (h : Trace (Bgzf.Move c) Bgzf.capEvents (Bgzf.init c) es s) : s.capView.Exact max es :=
  h.invariant (fun es s => s.capView.Exact max es)
    (fun _ _ _ hreach hexact hmove => (hmove.keeps (Bgzf.inv_of_reaches hreach) hexact).1)
    (ledger_inflightCap hcap hmax)

/-- The cap bounds the chunks in flight in every reachable state. -/
theorem Mmap.inFlight_le {c : Mmap.Config} {s : Mmap.State c} {max : ℕ}
    (hcap : c.maxInFlight = some max) (hmax : 1 ≤ max)
    (h : Reaches (Mmap.Move c) (Mmap.init c) s) :
    ∃ g, s.front.slots = some g ∧ g.inFlight ≤ max := by
  obtain ⟨es, htrace⟩ := h.exists_trace Mmap.capEvents
  obtain ⟨g, hg, -, -, hle⟩ := (Mmap.exact_of_trace hcap hmax htrace).counts.in_flight
  exact ⟨g, hg, hle⟩

/-- No more blocks are in flight than the cap allows. -/
theorem Bgzf.inFlight_le {c : Bgzf.Config} {s : Bgzf.State c} {max : ℕ}
    (hcap : c.maxInFlight = some max) (hmax : 1 ≤ max)
    (h : Reaches (Bgzf.Move c) (Bgzf.init c) s) :
    ∃ g, s.front.slots = some g ∧ g.inFlight ≤ max := by
  obtain ⟨es, htrace⟩ := h.exists_trace Bgzf.capEvents
  obtain ⟨g, hg, -, -, hle⟩ := (Bgzf.exact_of_trace hcap hmax htrace).counts.in_flight
  exact ⟨g, hg, hle⟩

/-- In every run of either pipeline the cap counts the chunks in flight, and no slot is given back
that is not in use. -/
theorem inflightCap_exact {max : ℕ} (hmax : 1 ≤ max) :
    (∀ (c : Mmap.Config) (s : Mmap.State c) (es : List SlotEvent), c.maxInFlight = some max →
      Trace (Mmap.Move c) Mmap.capEvents (Mmap.init c) es s →
        CapCounts max s.capView es ∧ ∀ s', Mmap.Move c s s' →
          .release ∈ Mmap.capEvents s s' → s.front.slots.GivesBack s'.front.slots) ∧
    ∀ (c : Bgzf.Config) (s : Bgzf.State c) (es : List SlotEvent), c.maxInFlight = some max →
      Trace (Bgzf.Move c) Bgzf.capEvents (Bgzf.init c) es s →
        CapCounts max s.capView es ∧ ∀ s', Bgzf.Move c s s' →
          .release ∈ Bgzf.capEvents s s' → s.front.slots.GivesBack s'.front.slots := by
  constructor
  · intro c s es hcap htrace
    have hexact := Mmap.exact_of_trace hcap hmax htrace
    exact ⟨hexact.counts, fun s' hmove =>
      (hmove.keeps (Mmap.inv_of_reaches htrace.reaches) hexact).2⟩
  · intro c s es hcap htrace
    have hexact := Bgzf.exact_of_trace hcap hmax htrace
    exact ⟨hexact.counts, fun s' hmove =>
      (hmove.keeps (Bgzf.inv_of_reaches htrace.reaches) hexact).2⟩

/-- A call with one item, which decodes to one byte. -/
def Mmap.oneByteCall : Mmap.Config :=
  { Mmap.failingCall with
    decode := fun item r => r = .ok ⟨item.id, ⟨[65], []⟩, false, [], 10⟩
    decode_total := fun _ => ⟨_, rfl⟩
    decode_id := fun _ _ h => by cases h; rfl }

/-- The item goes through all threads: it takes a slot, is delivered, and gives the slot back. -/
theorem Mmap.exists_trace_oneByteCall : ∃ s es,
    Trace (Mmap.Move oneByteCall) capEvents (init oneByteCall) es s ∧
      es = [.acquire 0, .deliver 0, .release] := by
  let first : Fin oneByteCall.numThreads := ⟨0, Nat.two_pos⟩
  let resolver : Fin oneByteCall.resolveThreads := ⟨0, Nat.one_pos⟩
  have hlistening {n : ℕ} {i : Fin n} {β : Type} {workers : Fin n → Worker β}
      (hrecv : workers i = .recv) : ¬∀ i, workers i = .stopped := by
    intro hstopped
    rw [hstopped i] at hrecv
    cases hrecv
  have hroom : 0 < 4 := by decide
  have hstart : Trace (Move oneByteCall) capEvents (init oneByteCall) [] _ := .refl
  -- dispatch and a worker
  have hslot := hstart.tail (Or.inl (.front (.acquire rfl rfl)))
  have hsent := hslot.tail
    (Or.inl (.front (.send rfl (Or.inr (hlistening (i := first) rfl)) hroom)))
  have htaken := hsent.tail (Or.inl (.front (.work (.take (i := first) rfl rfl ⟨_, rfl, rfl⟩))))
  have hgiven := htaken.tail (Or.inl (.front (.work (.give (i := first) rfl nofun hroom))))
  -- stage A and the resolve pool
  have hreceived := hgiven.tail (Or.inl (.recvOutcome rfl rfl rfl))
  have haccepted := hreceived.tail (Or.inl (.accept rfl rfl (Or.inl ⟨⟨_, rfl⟩, rfl, rfl, rfl⟩)))
  have hjob := haccepted.tail (Or.inl (.sendJob rfl (hlistening (i := resolver) rfl) hroom))
  have hresolve := hjob.tail (Or.inl (.resolve (.take (i := resolver) rfl rfl rfl)))
  have hdone := hresolve.tail (Or.inl (.resolve (.give (i := resolver) rfl trivial hroom)))
  -- the output stage
  have hrecv := hdone.tail (Or.inl (.recvDone rfl rfl Nat.one_pos rfl))
  have htake := hrecv.tail (Or.inl (.take rfl rfl rfl))
  have hdeliver := htake.tail (Or.inl (.deliver rfl rfl))
  exact ⟨_, _, hdeliver, rfl⟩

/-- The batch of two blocks goes through all threads. -/
theorem Bgzf.exists_trace_threeMembers : ∃ s es,
    Trace (Bgzf.Move threeMembers) capEvents (init threeMembers) es s ∧
      es = [.acquire 0, .deliver 0, .release] := by
  let first : Fin threeMembers.numThreads := ⟨0, Nat.two_pos⟩
  have hroom : 0 < 4 := by decide
  have hbatches : threeMembers.batches = [⟨0, 0, [(0, 32), (32, 64)], (64, none)⟩] := rfl
  have hdecode : .ok (0, [65, 65]) = decodeBatch threeMembers.crc threeMembers.file
      ⟨0, 0, [(0, 32), (32, 64)], (64, none)⟩ := by
    decide +kernel
  have hstart : Trace (Move threeMembers) capEvents (init threeMembers) [] _ := .refl
  have hslot := hstart.tail (Or.inl (.front (.acquire (congrArg Feeder.acquire hbatches) rfl)))
  have hsent := hslot.tail (Or.inl (.front (.send rfl (Or.inl trivial) hroom)))
  have htaken := hsent.tail (Or.inl (.front (.work (.take (i := first) rfl rfl hdecode))))
  have hgiven := htaken.tail (Or.inl (.front (.work (.give (i := first) rfl trivial hroom))))
  have hreceived := hgiven.tail (Or.inl (.recvBatch rfl rfl rfl))
  have htake := hreceived.tail (Or.inl (.take rfl rfl))
  have hdeliver := htake.tail (Or.inl (.deliver rfl rfl))
  exact ⟨_, _, hdeliver, rfl⟩

/-- In a call of either pipeline whose cap is one, a chunk has taken the slot and given it back. -/
theorem inflightCap_exact_calls :
    (∃ (s : Mmap.State Mmap.oneByteCall) (es : List SlotEvent),
      Trace (Mmap.Move Mmap.oneByteCall) Mmap.capEvents (Mmap.init _) es s ∧
        SlotEvent.admitted es = [0] ∧ SlotEvent.released es = 1 ∧
        SlotEvent.outstanding es = [] ∧ CapCounts 1 s.capView es) ∧
      ∃ (s : Bgzf.State Bgzf.threeMembers) (es : List SlotEvent),
        Trace (Bgzf.Move Bgzf.threeMembers) Bgzf.capEvents (Bgzf.init _) es s ∧
          SlotEvent.admitted es = [0] ∧ SlotEvent.released es = 1 ∧
          SlotEvent.outstanding es = [] ∧ CapCounts 1 s.capView es := by
  have hexact := @inflightCap_exact 1 le_rfl
  constructor
  · obtain ⟨s, es, htrace, hes⟩ := Mmap.exists_trace_oneByteCall
    have hcounts := (hexact.1 Mmap.oneByteCall s es rfl htrace).1
    subst hes
    exact ⟨s, _, htrace, rfl, rfl, rfl, hcounts⟩
  · obtain ⟨s, es, htrace, hes⟩ := Bgzf.exists_trace_threeMembers
    have hcounts := (hexact.2 Bgzf.threeMembers s es rfl htrace).1
    subst hes
    exact ⟨s, _, htrace, rfl, rfl, rfl, hcounts⟩

end Pipeline

end RustyRapidgzip
