import RustyRapidgzip.Pipeline.Mmap
import RustyRapidgzip.Pipeline.Tail

/-!
# What flows through the pipeline

Whatever the order of the steps, stage A accepts a chain of chunks, each decoded from where
the one before ended. The jobs are the chunks of the chain with the tails before them, and
what the output stage has sent is what they resolve to, in order. An error that the call
returns has a cause in the chain.
-/

namespace RustyRapidgzip

open Crc Threads Transition

namespace Pipeline

namespace Mmap

/-! ## Chains of chunks -/

/-- No chunk is the last one of the body. -/
def Unfinished (rs : List WorkResult) : Prop := ∀ r ∈ rs, r.finalBlock = false

/-- Where the chunk after these starts. -/
def chainEnd (rs : List WorkResult) : ℕ := (rs.getLast?.map WorkResult.actualEndBit).getD 0

/-- The item that stage A decodes next after these chunks. -/
def chainItem (rs : List WorkResult) (endBitHint : ℕ) : WorkItem :=
  ⟨rs.length, chainEnd rs, endBitHint⟩

/-- Each chunk is decoded from where the one before ended. -/
inductive Chain (c : Config) : List WorkResult → Prop
  | nil : Chain c []
  | snoc {rs : List WorkResult} {item : WorkItem} {r : WorkResult} (hchain : Chain c rs)
      (hopen : Unfinished rs) (hitem : c.items[rs.length]? = some item)
      (hdecode : c.decode (chainItem rs item.endBitHint) (.ok r)) : Chain c (rs ++ [r])

/-- The job for the chunk after these. -/
def jobAt (before : List WorkResult) (r : WorkResult) : ResolveJob :=
  ⟨before.length, r.chunk, tailChain (before.map WorkResult.chunk), r.finalBlock,
    r.memberBoundaries⟩

/-- What the chunks of a chain resolve to. -/
inductive Resolves (c : Config) : List WorkResult → List ResolveDone → Prop
  | nil : Resolves c [] []
  | snoc {rs : List WorkResult} {ds : List ResolveDone} {r : WorkResult} {d : ResolveDone}
      (hresolves : Resolves c rs ds) (hjob : resolveJob c.crc (jobAt rs r) = .ok d) :
      Resolves c (rs ++ [r]) (ds ++ [d])

/-- Add chunks to the members, in order. -/
def stitchAll (crc : Checksum) (ds : List ResolveDone) : Except Error OpenMember :=
  ds.foldlM (fun m d => stitch crc d m) (.new crc)

/-- What an error of the pipeline comes from: decoding the next chunk of the chain, resolving a
chunk of it, the checks of a member, or a chain that does not reach the end of the body. -/
inductive Fails (c : Config) : Error → Prop
  | decode {rs : List WorkResult} {item : WorkItem} {e : Error} (hchain : Chain c rs)
      (hopen : Unfinished rs) (hitem : c.items[rs.length]? = some item)
      (hdecode : c.decode (chainItem rs item.endBitHint) (.error e)) : Fails c e
  | resolve {rs : List WorkResult} {r : WorkResult} {e : Error} (hchain : Chain c (rs ++ [r]))
      (hjob : resolveJob c.crc (jobAt rs r) = .error e) : Fails c e
  | stitch {rs : List WorkResult} {ds : List ResolveDone} {e : Error} (hchain : Chain c rs)
      (hresolves : Resolves c rs ds) (hstitch : stitchAll c.crc ds = .error e) : Fails c e
  | unfinished {rs : List WorkResult} {e : Error} (hchain : Chain c rs)
      (hlen : rs.length = c.items.length) (hopen : Unfinished rs) : Fails c e
  | noTrailer {rs : List WorkResult} {r : WorkResult} {e : Error} (hchain : Chain c (rs ++ [r]))
      (hfinal : r.finalBlock = true) (hnone : r.memberBoundaries = []) : Fails c e

/-- The bytes that are sent for resolved chunks. -/
def sentBytes (ds : List ResolveDone) : List (List UInt8) := ds.map fun d => d.chunk.bytes

/-- A whole chain: its last chunk ends the body, its members pass their checks, and its bytes
have been sent. -/
structure Succeeds (c : Config) (rs : List WorkResult) (r : WorkResult) (ds : List ResolveDone)
    (bc : ℕ) : Prop where
  chain : Chain c (rs ++ [r])
  final : r.finalBlock = true
  resolves : Resolves c (rs ++ [r]) ds
  checks : ∃ m, stitchAll c.crc ds = .ok m
  consumed : ∃ mb, r.memberBoundaries.getLast? = some mb ∧ bc = mb.trailerInputByte + 8

section Chains

variable {c : Config} {rs rs' : List WorkResult} {r : WorkResult} {ds : List ResolveDone}
  {d : ResolveDone}

/-- A chain ends where its last chunk ends. -/
theorem chainEnd_snoc : chainEnd (rs ++ [r]) = r.actualEndBit := by
  simp [chainEnd]

/-- A chain has no more chunks than items. -/
theorem Chain.length_le (h : Chain c rs) : rs.length ≤ c.items.length := by
  cases h with
  | nil => exact Nat.zero_le _
  | snoc _ _ hitem _ =>
    have := (List.getElem?_eq_some_iff.mp hitem).1
    rw [List.length_append, List.length_singleton]
    omega

/-- Only the last chunk of a chain may end the body. -/
theorem Chain.unfinished (h : Chain c (rs ++ r :: rs')) : Unfinished rs := by
  generalize hall : rs ++ r :: rs' = all at h
  induction h generalizing rs' with
  | nil => simp at hall
  | @snoc older _ last _ hopen _ _ ih =>
    rcases List.eq_nil_or_concat rs' with rfl | ⟨front, last', rfl⟩
    · obtain ⟨rfl, -⟩ := List.append_inj' hall rfl
      exact hopen
    · rw [List.concat_eq_append, ← List.cons_append, ← List.append_assoc] at hall
      exact ih (List.append_inj' hall rfl).1

/-- The beginning of a chain is a chain. -/
theorem Chain.of_prefix (h : Chain c rs) (hinit : rs' <+: rs) : Chain c rs' := by
  induction h with
  | nil => rw [List.prefix_nil.mp hinit]; exact .nil
  | snoc hchain hopen hitem hdecode ih =>
    rcases List.prefix_concat_iff.mp hinit with rfl | hshort
    · exact .snoc hchain hopen hitem hdecode
    · exact ih hshort

/-- A chain ends with the last chunk of the body. -/
theorem Chain.eq_of_final (h : Chain c rs') (hinit : rs ++ [r] <+: rs')
    (hfinal : r.finalBlock = true) : rs' = rs ++ [r] := by
  obtain ⟨rest, rfl⟩ := hinit
  cases rest with
  | nil => exact List.append_nil _
  | cons r' rest =>
    have hopen := h.unfinished r (List.mem_append_right rs List.mem_cons_self)
    rw [hfinal] at hopen
    cases hopen

/-- There are as many resolved chunks as chunks. -/
theorem Resolves.length_eq (h : Resolves c rs ds) : ds.length = rs.length := by
  induction h with
  | nil => rfl
  | snoc _ _ ih => rw [List.length_append, List.length_append, ih]; rfl

/-- The last chunk is resolved with the tail of those before it. -/
theorem resolves_snoc_iff : Resolves c (rs ++ [r]) ds ↔
    ∃ ds' d, ds = ds' ++ [d] ∧ Resolves c rs ds' ∧ resolveJob c.crc (jobAt rs r) = .ok d := by
  constructor
  · intro h
    generalize hall : rs ++ [r] = all at h
    cases h with
    | nil => simp at hall
    | snoc hresolves hjob =>
      obtain ⟨rfl, hr⟩ := List.append_inj' hall rfl
      cases hr
      exact ⟨_, _, rfl, hresolves, hjob⟩
  · rintro ⟨ds', d, rfl, hresolves, hjob⟩
    exact .snoc hresolves hjob

/-- The last chunk is stitched behind the others. -/
theorem stitchAll_snoc : stitchAll c.crc (ds ++ [d]) = stitchAll c.crc ds >>= stitch c.crc d := by
  rw [stitchAll, List.foldlM_append, stitchAll]
  simp only [List.foldlM_cons, List.foldlM_nil, bind_pure]

/-- The last chunk makes the tail from the one before it. -/
theorem tailChain_snoc (chunks : List SpeculativeChunk) (chunk : SpeculativeChunk) :
    tailChain (chunks ++ [chunk]) = buildPrevTailFast chunk (tailChain chunks) := by
  rw [tailChain, List.foldl_append]
  rfl

/-- A resolved chunk keeps what its job says about it. -/
theorem resolveJob_ok {crc : Checksum} {job : ResolveJob} (h : resolveJob crc job = .ok d) :
    d.id = job.id ∧ d.finalBlock = job.finalBlock ∧
      d.memberBoundaries = job.memberBoundaries := by
  unfold resolveJob at h
  split at h
  · cases h
  · cases h
    exact ⟨rfl, rfl, rfl⟩

end Chains

/-! ## Another decoder -/

/-- Along its chains, a call decodes as another one does on the same items. -/
structure Simulates (c c' : Config) : Prop where
  crc_eq : c.crc = c'.crc
  items_eq : c.items = c'.items
  decodes : ∀ rs item r, Chain c' rs → Unfinished rs → c'.items[rs.length]? = some item →
    c.decode (chainItem rs item.endBitHint) r → c'.decode (chainItem rs item.endBitHint) r

section Simulates

variable {c c' : Config} {rs : List WorkResult} {r : WorkResult} {ds : List ResolveDone} {bc : ℕ}
  {e : Error}

/-- What one decoder chains, the other one does. -/
theorem Simulates.chain (hsim : Simulates c c') (h : Chain c rs) : Chain c' rs := by
  induction h with
  | nil => exact .nil
  | snoc _ hopen hitem hdecode ih =>
    rw [hsim.items_eq] at hitem
    exact .snoc ih hopen hitem (hsim.decodes _ _ _ ih hopen hitem hdecode)

/-- What is resolved from one decoder is resolved from the other one. -/
theorem Simulates.resolves (hsim : Simulates c c') (h : Resolves c rs ds) :
    Resolves c' rs ds := by
  induction h with
  | nil => exact .nil
  | snoc _ hjob ih =>
    rw [hsim.crc_eq] at hjob
    exact .snoc ih hjob

/-- Its errors have their causes in the chains of the other one. -/
theorem Simulates.fails (hsim : Simulates c c') (h : Fails c e) : Fails c' e := by
  cases h with
  | decode hchain hopen hitem hdecode =>
    rw [hsim.items_eq] at hitem
    exact .decode (hsim.chain hchain) hopen hitem
      (hsim.decodes _ _ _ (hsim.chain hchain) hopen hitem hdecode)
  | resolve hchain hjob =>
    rw [hsim.crc_eq] at hjob
    exact .resolve (hsim.chain hchain) hjob
  | stitch hchain hresolves hstitch =>
    rw [hsim.crc_eq] at hstitch
    exact .stitch (hsim.chain hchain) (hsim.resolves hresolves) hstitch
  | unfinished hchain hlen hopen =>
    rw [hsim.items_eq] at hlen
    exact .unfinished (hsim.chain hchain) hlen hopen
  | noTrailer hchain hfinal hnone => exact .noTrailer (hsim.chain hchain) hfinal hnone

/-- Its whole chains are whole chains of the other one. -/
theorem Simulates.succeeds (hsim : Simulates c c') (h : Succeeds c rs r ds bc) :
    Succeeds c' rs r ds bc :=
  ⟨hsim.chain h.chain, h.final, hsim.resolves h.resolves, by
    rw [← hsim.crc_eq]
    exact h.checks, h.consumed⟩

end Simulates

/-! ## The invariant -/

/-- A job that stage A has handed on. -/
def StageA.IsJob (a : StageA) (job : ResolveJob) : Prop :=
  ∃ before r, before ++ [r] <+: a.accepted ∧ before.length < a.nextId ∧ job = jobAt before r

/-- What a job that stage A has handed on resolves to. -/
def StageA.IsDone (crc : Checksum) (a : StageA) (d : ResolveDone) : Prop :=
  ∃ job, a.IsJob job ∧ resolveJob crc job = .ok d

/-- Where stage A stands in its chain. -/
def StageA.Stands (a : StageA) : Prop :=
  match a.phase with
  | .drain => a.nextId = a.accepted.length ∧ Unfinished a.accepted
  | .sendJob job => ∃ before r, a.accepted = before ++ [r] ∧ a.nextId = before.length ∧
      Unfinished before ∧ job = jobAt before r
  | .sendErr _ => a.nextId = a.accepted.length
  | .stopped => a.nextId ≤ a.accepted.length

/-- Stage A has accepted a chain, and remembers where it ends and its tail. -/
structure Chained (c : Config) (a : StageA) : Prop where
  chain : Chain c a.accepted
  start_eq : a.expectedStart = chainEnd a.accepted
  tail_eq : a.prevTail = tailChain (a.accepted.map WorkResult.chunk)
  stands : a.Stands

/-- The outcomes before stage A come from the items that dispatch has taken a slot for. -/
structure Sourced (c : Config) (front : Front c.numThreads WorkItem WorkOutcome) (a : StageA) :
    Prop where
  tracks : front.Tracks c.work c.items
  reorder : ∀ o ∈ a.reorder, ∃ item ∈ c.items.take front.admitted, c.work item o
  admitted : a.accepted.length ≤ front.admitted

/-- The jobs and the resolved chunks come from stage A. -/
structure Resolving {c : Config} (s : State c) : Prop where
  pool : s.resolvers.Every s.stageA.IsJob
    fun r => ∀ d, r = .ok d → s.stageA.IsDone c.crc d
  reorder : ∀ d ∈ s.output.reorder, s.stageA.IsDone c.crc d

/-- Where the output stage finds the end of the body. -/
def finalByteOf (r : WorkResult) : Option ℕ :=
  if r.finalBlock then r.memberBoundaries.getLast?.map fun mb => mb.trailerInputByte + 8 else none

/-- The output stage has taken these chunks of the chain. -/
structure Output.Holds (c : Config) (accepted : List WorkResult) (out : Output)
    (rs : List WorkResult) (ds : List ResolveDone) : Prop where
  taken : rs <+: accepted
  resolves : Resolves c rs ds
  stitched : stitchAll c.crc ds = .ok out.member
  totalUc_eq : out.totalUc = (sentBytes ds).flatten.length
  sinkClosed_eq : out.sinkClosed = false
  lastErr_eq : out.lastErr = none

/-- The output stage has left its loop: the sink was closed, there was an error, or it has sent
the whole chain. -/
def Output.Left (c : Config) (accepted : List WorkResult) (received : List (List UInt8))
    (out : Output) : Prop :=
  out.sinkClosed = true ∨ (∃ e, out.sinkClosed = false ∧ out.lastErr = some e ∧ Fails c e) ∨
    ∃ rs ds, out.Holds c accepted rs ds ∧ received = sentBytes ds ∧ out.sent = ds.length ∧
      ((∃ before r, rs = before ++ [r] ∧ r.finalBlock = true ∧ out.finalByte = finalByteOf r) ∨
        (Unfinished rs ∧ c.items.length ≤ rs.length ∧ out.finalByte = none))

/-- Where the output stage stands. -/
def Output.Stands (c : Config) (accepted : List WorkResult) (received : List (List UInt8))
    (out : Output) : Prop :=
  match out.phase with
  | .drain => ∃ rs ds, out.Holds c accepted rs ds ∧ Unfinished rs ∧ received = sentBytes ds ∧
      out.nextId = ds.length ∧ out.sent = ds.length ∧ out.finalByte = none
  | .deliver bytes final => ∃ rs r ds d, out.Holds c accepted (rs ++ [r]) (ds ++ [d]) ∧
      Unfinished rs ∧ received = sentBytes ds ∧ out.nextId = ds.length ∧ out.sent = ds.length ∧
      bytes = d.chunk.bytes ∧ final = r.finalBlock ∧ out.finalByte = finalByteOf r
  | .returned r => out.Left c accepted received ∧ ∃ n, r = out.result c.bodyLen n
  | _ => out.Left c accepted received

/-- The output stage is in its loop. -/
def OutputPhase.Looping : OutputPhase → Prop
  | .drain | .deliver _ _ => True
  | _ => False

/-- The chunk that the output stage waits for. -/
def Output.position (out : Output) : ℕ :=
  match out.phase with
  | .deliver _ _ => out.nextId + 1
  | _ => out.nextId

/-- Stage A goes on along its chain. -/
def StageAPhase.Forwarding : StageAPhase → Prop
  | .drain | .sendJob _ => True
  | _ => False

/-- The outcome for an item is on its way to stage A. -/
def State.Upstream {c : Config} (s : State c) (i : ℕ) : Prop :=
  s.front.Carries (fun item => item.id = i) (fun o => o.id = i) ∨
    ∃ o ∈ s.stageA.reorder, o.id = i

/-- A chunk is on its way to the output stage, or an error in its place. -/
def State.Downstream {c : Config} (s : State c) (i : ℕ) : Prop :=
  s.resolvers.Carries (fun job => job.id = i) (fun r => ∀ d, r = .ok d → d.id = i) ∨
    ∃ d ∈ s.output.reorder, d.id = i

/-- An error is on its way to the output stage. -/
def State.ErrorUnderWay {c : Config} (s : State c) : Prop :=
  s.resolvers.Carries (fun _ => False) fun r => ∀ d, r ≠ .ok d

/-- Stage A has handed on the last chunk of the body, or of all. -/
def StageA.AllHandedOn (c : Config) (a : StageA) : Prop :=
  (∃ before r, a.accepted = before ++ [r] ∧ r.finalBlock = true ∧ a.nextId = before.length + 1) ∨
    c.items.length ≤ a.nextId

/-- What holds while the output stage is in its loop: nothing is lost, and an error has a
cause. -/
structure Live {c : Config} (s : State c) : Prop where
  slots_open : s.front.slots.Open
  counts : s.front.slots.Counts s.front.admitted s.output.nextId
  complete : s.stageA.phase ≠ .stopped → s.front.Complete
  drained : s.resolvers.Drained (s.stageA.phase ≠ .stopped)
  upstream : s.stageA.phase.Forwarding → ∀ i, s.stageA.accepted.length ≤ i →
    i < c.items.length → s.Upstream i
  downstream : ∀ i, s.output.position ≤ i → i < s.stageA.nextId → s.Downstream i
  stopped : s.stageA.phase = .stopped → s.ErrorUnderWay ∨ s.stageA.AllHandedOn c
  failing : ∀ e, s.stageA.phase = .sendErr e → Fails c e
  errors : s.resolvers.Every (fun job => ∃ before r, Chain c (before ++ [r]) ∧ job = jobAt before r)
    fun r => ∀ e, r = .error e → Fails c e

/-- The invariant of the pipeline. -/
structure Inv {c : Config} (s : State c) : Prop where
  sourced : Sourced c s.front s.stageA
  chained : Chained c s.stageA
  resolving : Resolving s
  output : s.output.Stands c s.stageA.accepted s.sink.received
  live : s.output.phase.Looping → Live s

section Invariant

variable {c : Config} {s s' : State c}

/-- An item stands at the place of its number. -/
theorem Config.getElem?_of_mem {item : WorkItem} (h : item ∈ c.items) :
    c.items[item.id]? = some item := by
  obtain ⟨i, hi⟩ := List.mem_iff_getElem?.mp h
  rwa [c.items_id i item hi]

/-- The first items have the first numbers. -/
theorem Config.id_lt_of_mem_take {item : WorkItem} {n : ℕ} (h : item ∈ c.items.take n) :
    item.id < n := by
  obtain ⟨i, hi⟩ := List.mem_iff_getElem?.mp h
  have hlt : i < n := by
    have := (List.getElem?_eq_some_iff.mp hi).1
    rw [List.length_take] at this
    omega
  rw [List.getElem?_take_of_lt hlt] at hi
  rwa [c.items_id i item hi]

/-- What stage A goes on with is a decoding from where the chain ends. -/
theorem Config.Checks.decode {item : WorkItem} {o : WorkOutcome} {r : Except Error WorkResult}
    {start again : ℕ} (h : c.Checks start o r again) (hwork : c.work item o) :
    c.decode ⟨item.id, start, item.endBitHint⟩ r := by
  obtain ⟨r', hdecode, rfl⟩ := hwork
  rcases h with ⟨-, hstart, rfl, -⟩ | ⟨-, hdecode', -⟩
  · simp only at hstart
    rwa [← hstart]
  · exact hdecode'

/-- The chunk that stage A takes from its map continues the chain. -/
theorem Inv.decode_next (hinv : Inv s) (hphase : s.stageA.phase = .drain) {o : WorkOutcome}
    {rest : List WorkOutcome} {r : Except Error WorkResult} {again : ℕ}
    (hnext : Reorder.remove WorkOutcome.id s.stageA.nextId s.stageA.reorder = some (o, rest))
    (hchecks : c.Checks s.stageA.expectedStart o r again) :
    ∃ item, c.items[s.stageA.accepted.length]? = some item ∧
      s.stageA.accepted.length < s.front.admitted ∧
      c.decode (chainItem s.stageA.accepted item.endBitHint) r := by
  have hstands := hinv.chained.stands
  rw [StageA.Stands, hphase] at hstands
  obtain ⟨ho, hid⟩ := Reorder.remove_eq_some hnext
  obtain ⟨item, hitem, hwork⟩ := hinv.sourced.reorder o ho
  have hdecode := hchecks.decode hwork
  have hlt := c.id_lt_of_mem_take hitem
  have hget := c.getElem?_of_mem (List.mem_of_mem_take hitem)
  have hitemId : item.id = s.stageA.accepted.length := by
    obtain ⟨_, -, rfl⟩ := hwork
    rw [← hstands.1]
    exact hid
  rw [hitemId] at hdecode hlt hget
  rw [hinv.chained.start_eq] at hdecode
  exact ⟨item, hget, hlt, hdecode⟩

/-- Every step keeps the accepted chunks a chain. -/
theorem Step.chained (hinv : Inv s) (h : Step c s s') : Chained c s'.stageA := by
  have hchained := hinv.chained
  have hstands := hchained.stands
  rw [StageA.Stands] at hstands
  cases h with
  | accept hphase hnext hchecks =>
    obtain ⟨item, hitem, -, hdecode⟩ := hinv.decode_next hphase hnext hchecks
    rw [hphase] at hstands
    have hid := c.decode_id _ _ hdecode
    refine ⟨.snoc hchained.chain hstands.2 hitem hdecode, chainEnd_snoc.symm, ?_, ?_⟩
    · simp only [StageA.accept, List.map_append, List.map_cons, List.map_nil]
      rw [tailChain_snoc, ← hchained.tail_eq]
    · refine ⟨_, _, rfl, hstands.1, hstands.2, ?_⟩
      rw [hid, hchained.tail_eq]
      rfl
  | refuse hphase _ _ =>
    rw [hphase] at hstands
    exact ⟨hchained.chain, hchained.start_eq, hchained.tail_eq, hstands.1⟩
  | recvOutcome hphase _ _ =>
    rw [hphase] at hstands
    refine ⟨hchained.chain, hchained.start_eq, hchained.tail_eq, ?_⟩
    simp only [StageA.Stands]
    split_ifs
    · exact hstands
    · exact hstands.1.le
  | workerClosed hphase _ _ _ =>
    rw [hphase] at hstands
    exact ⟨hchained.chain, hchained.start_eq, hchained.tail_eq, hstands.1⟩
  | sendJob hphase _ _ =>
    rw [hphase] at hstands
    obtain ⟨before, r, haccepted, hnextId, hopen, rfl⟩ := hstands
    refine ⟨hchained.chain, hchained.start_eq, hchained.tail_eq, ?_⟩
    have hlength : s.stageA.nextId + 1 = s.stageA.accepted.length := by
      rw [hnextId, haccepted, List.length_append, List.length_singleton]
    cases hfinal : r.finalBlock with
    | true =>
      simp only [StageA.Stands, jobAt, hfinal, if_true]
      exact hlength.le
    | false =>
      simp only [StageA.Stands, jobAt, hfinal, Bool.false_eq_true, if_false]
      refine ⟨hlength, ?_⟩
      rw [haccepted]
      intro r' hr'
      rcases List.mem_append.mp hr' with hr' | hr'
      · exact hopen r' hr'
      · rwa [List.mem_singleton.mp hr']
  | jobLost hphase _ =>
    rw [hphase] at hstands
    obtain ⟨before, r, haccepted, hnextId, -, -⟩ := hstands
    refine ⟨hchained.chain, hchained.start_eq, hchained.tail_eq, ?_⟩
    simp only [StageA.Stands]
    rw [hnextId, haccepted, List.length_append]
    exact Nat.le_add_right _ _
  | sendErr hphase _ _ =>
    rw [hphase] at hstands
    exact ⟨hchained.chain, hchained.start_eq, hchained.tail_eq, hstands.le⟩
  | errLost hphase _ =>
    rw [hphase] at hstands
    exact ⟨hchained.chain, hchained.start_eq, hchained.tail_eq, hstands.le⟩
  | _ => exact hchained

/-- Every step keeps the results those of the items. -/
theorem Step.sourced (hinv : Inv s) (h : Step c s s') : Sourced c s'.front s'.stageA := by
  have hsourced := hinv.sourced
  obtain ⟨htracks, hreorder, hadmitted⟩ := hsourced
  cases h with
  | front hfront =>
    obtain ⟨htracks', hle⟩ := hfront.tracks htracks
    refine ⟨htracks', fun o ho => ?_, hadmitted.trans hle⟩
    obtain ⟨item, hitem, hwork⟩ := hreorder o ho
    exact ⟨item, (List.take_prefix_take_left hle).subset hitem, hwork⟩
  | accept hphase hnext hchecks =>
    obtain ⟨item, -, hlt, -⟩ := hinv.decode_next hphase hnext hchecks
    refine ⟨htracks, fun o ho => hreorder o (Reorder.mem_of_mem_remove hnext ho), ?_⟩
    simp only [StageA.accept, List.length_append, List.length_singleton]
    exact hlt
  | refuse _ hnext _ =>
    exact ⟨htracks, fun o ho => hreorder o (Reorder.mem_of_mem_remove hnext ho), hadmitted⟩
  | recvOutcome _ _ hresult =>
    obtain ⟨ho, hevery⟩ := htracks.every.leave hresult
    refine ⟨⟨htracks.at_items, hevery⟩, fun o' ho' => ?_, hadmitted⟩
    rcases Reorder.mem_of_mem_insert ho' with rfl | ho'
    · exact ho
    · exact hreorder o' ho'
  | deliver _ _ => exact ⟨⟨htracks.at_items, htracks.every⟩, hreorder, hadmitted⟩
  | sinkClosed _ _ => exact ⟨⟨htracks.at_items, htracks.every⟩, hreorder, hadmitted⟩
  | shutdown _ => exact ⟨⟨htracks.at_items, htracks.every⟩, hreorder, hadmitted⟩
  | _ => exact ⟨htracks, hreorder, hadmitted⟩

/-- A job stays one while more chunks are accepted. -/
theorem StageA.IsJob.mono {a a' : StageA} {job : ResolveJob} (h : a.IsJob job)
    (haccepted : a.accepted <+: a'.accepted) (hnextId : a.nextId ≤ a'.nextId) : a'.IsJob job := by
  obtain ⟨before, r, hbefore, hlt, rfl⟩ := h
  exact ⟨before, r, hbefore.trans haccepted, by omega, rfl⟩

/-- Stage A only adds to its jobs. -/
theorem Resolving.mono {a : StageA} (h : Resolving s)
    (haccepted : s.stageA.accepted <+: a.accepted) (hnextId : s.stageA.nextId ≤ a.nextId) :
    s.resolvers.Every a.IsJob (fun r => ∀ d, r = .ok d → a.IsDone c.crc d) ∧
      ∀ d ∈ s.output.reorder, a.IsDone c.crc d := by
  have hdone (d : ResolveDone) : s.stageA.IsDone c.crc d → a.IsDone c.crc d := by
    rintro ⟨job, hjob, hd⟩
    exact ⟨job, hjob.mono haccepted hnextId, hd⟩
  exact ⟨h.pool.mono (fun _ hjob => hjob.mono haccepted hnextId) fun _ hr d hd => hdone d (hr d hd),
    fun d hd => hdone d (h.reorder d hd)⟩

/-- Every step keeps the resolved chunks those of the jobs. -/
theorem Step.resolving (hinv : Inv s) (h : Step c s s') : Resolving s' := by
  have hresolving := hinv.resolving
  cases h with
  | accept _ _ _ =>
    obtain ⟨hpool, hreorder⟩ := hresolving.mono (a := s.stageA.accept _ _ _)
      (List.prefix_append _ _) le_rfl
    exact ⟨hpool, hreorder⟩
  | @sendJob job hphase _ _ =>
    have hstands := hinv.chained.stands
    rw [StageA.Stands, hphase] at hstands
    obtain ⟨before, r, haccepted, hnextId, -, rfl⟩ := hstands
    obtain ⟨hpool, hreorder⟩ := hresolving.mono
      (a := { s.stageA with
        phase := if (jobAt before r).finalBlock then .stopped else .drain
        nextId := s.stageA.nextId + 1 }) List.prefix_rfl (Nat.le_succ _)
    refine ⟨hpool.put ⟨before, r, ?_, ?_, rfl⟩, hreorder⟩
    · rw [haccepted]
    · simp only
      omega
  | sendErr _ _ _ => exact ⟨hresolving.pool.emit (by simp), hresolving.reorder⟩
  | resolve hresolvers =>
    refine ⟨hresolvers.every ?_ hresolving.pool, hresolving.reorder⟩
    rintro job _ hjob rfl d hd
    exact ⟨job, hjob, hd⟩
  | take _ hnext _ =>
    exact ⟨hresolving.pool, fun d hd => hresolving.reorder d (Reorder.mem_of_mem_remove hnext hd)⟩
  | reject _ hnext _ =>
    exact ⟨hresolving.pool, fun d hd => hresolving.reorder d (Reorder.mem_of_mem_remove hnext hd)⟩
  | recvDone _ _ _ hdone =>
    obtain ⟨hd, hpool⟩ := hresolving.pool.leave hdone
    refine ⟨hpool, fun d' hd' => ?_⟩
    rcases Reorder.mem_of_mem_insert hd' with rfl | hd'
    · exact hd _ rfl
    · exact hresolving.reorder d' hd'
  | recvErr _ _ _ hdone => exact ⟨(hresolving.pool.leave hdone).2, hresolving.reorder⟩
  | _ => exact ⟨hresolving.pool, hresolving.reorder⟩

/-- The output stage has taken no more chunks than stage A has accepted. -/
theorem Output.Stands.position_le (h : s.output.Stands c s.stageA.accepted s.sink.received)
    (hloop : s.output.phase.Looping) : s.output.position ≤ s.stageA.accepted.length := by
  unfold Output.Stands at h
  unfold Output.position
  split at h
  · next hphase =>
    obtain ⟨rs, ds, hholds, -, -, hnextId, -⟩ := h
    rw [hphase, hnextId, hholds.resolves.length_eq]
    exact hholds.taken.length_le
  · next hphase =>
    obtain ⟨rs, r, ds, d, hholds, -, -, hnextId, -⟩ := h
    have hlength := hholds.resolves.length_eq
    have hle := hholds.taken.length_le
    simp only [List.length_append, List.length_singleton] at hlength hle
    rw [hphase]
    simp only
    omega
  · next hphase =>
    rw [hphase] at hloop
    exact hloop.elim
  · next hdrain hdeliver hreturned =>
    revert hloop
    cases hphase : s.output.phase with
    | drain => exact absurd hphase hdrain
    | deliver bytes final => exact absurd hphase (hdeliver bytes final)
    | _ => exact False.elim

/-- A chain that has lost nothing upstream is complete when the workers are gone. -/
theorem Inv.fails_of_closed (hinv : Inv s) (hlive : Live s) (hphase : s.stageA.phase = .drain)
    (hnext : Reorder.remove WorkOutcome.id s.stageA.nextId s.stageA.reorder = none)
    (hresult : s.front.pool.output = []) (hstopped : s.front.pool.Stopped) (e : Error) :
    Fails c e := by
  have hstands := hinv.chained.stands
  rw [StageA.Stands, hphase] at hstands
  obtain ⟨hnextId, hopen⟩ := hstands
  have hend : c.items.length ≤ s.stageA.accepted.length := by
    by_contra hlt
    have hforward : s.stageA.phase.Forwarding := by simp [hphase, StageAPhase.Forwarding]
    rcases hlive.upstream hforward _ le_rfl (Nat.lt_of_not_le hlt) with hcarries | ⟨o, ho, hid⟩
    · exact (hlive.complete (by simp [hphase])).not_carries (Nat.lt_of_lt_of_le (by decide)
        c.two_le_numThreads) hstopped hresult hcarries
    · exact Reorder.remove_eq_none hnext o ho (by rw [hid, hnextId])
  exact .unfinished hinv.chained.chain (Nat.le_antisymm hinv.chained.chain.length_le hend) hopen

/-- The resolve pool does not close before the whole chain has been sent. -/
theorem Inv.not_closed (hinv : Inv s) (hphase : s.output.phase = .drain)
    (hnext : Reorder.remove ResolveDone.id s.output.nextId s.output.reorder = none)
    (hmore : s.output.nextId < c.items.length) (hdone : s.resolvers.output = [])
    (hstageA : s.stageA.phase = .stopped) : ¬s.resolvers.Stopped := by
  intro hstopped
  have hlive := hinv.live (by simp [hphase, OutputPhase.Looping])
  have hnone := fun P Q => hlive.drained.not_carries (P := P) (Q := Q) c.resolveThreads_pos
    hstopped hdone
  have hposition : s.output.position = s.output.nextId := by simp [Output.position, hphase]
  have hle : s.stageA.nextId ≤ s.output.nextId := by
    by_contra hlt
    rcases hlive.downstream s.output.nextId hposition.le (Nat.lt_of_not_le hlt) with
      hcarries | ⟨d, hd, hid⟩
    · exact hnone _ _ hcarries
    · exact Reorder.remove_eq_none hnext d hd hid
  rcases hlive.stopped hstageA with herror | ⟨before, r, haccepted, hfinal, hnextId⟩ | hend
  · exact hnone _ _ herror
  · have hstands := hinv.output
    rw [Output.Stands, hphase] at hstands
    obtain ⟨rs, ds, hholds, hopen, -, hds, -⟩ := hstands
    have hlength := hholds.resolves.length_eq
    have htaken := hholds.taken
    have hall : rs = s.stageA.accepted := by
      apply htaken.eq_of_length_le
      rw [haccepted, List.length_append, List.length_singleton]
      omega
    have hr := hopen r (by rw [hall, haccepted]; simp)
    rw [hr] at hfinal
    cases hfinal
  · omega

/-- An output stage in its loop listens. -/
theorem OutputPhase.Looping.listening {phase : OutputPhase} (h : phase.Looping) :
    phase.Listening := by
  cases phase with
  | drain => exact trivial
  | deliver _ _ => exact trivial
  | leave => exact trivial
  | closing => exact h
  | joining => exact h
  | returned _ => exact h

/-- Stage A goes on to send a job or an error. -/
theorem Live.sending {stageA : StageA} (h : Live s) (hopen : s.stageA.phase ≠ .stopped)
    (hrunning : stageA.phase ≠ .stopped) (hnextId : stageA.nextId = s.stageA.nextId)
    (hupstream : stageA.phase.Forwarding → ∀ i, stageA.accepted.length ≤ i → i < c.items.length →
      State.Upstream { s with stageA := stageA } i)
    (hfailing : ∀ e, stageA.phase = .sendErr e → Fails c e) :
    Live { s with stageA := stageA } :=
  { h with
    complete := fun _ => h.complete hopen
    drained := h.drained.of_running hopen
    upstream := hupstream
    downstream := fun i hi hlt => h.downstream i hi (hnextId ▸ hlt)
    stopped := fun hstopped => absurd hstopped hrunning
    failing := hfailing }

/-- While the output stage is in its loop, no thread has stopped without a reason. -/
theorem Step.live (hinv : Inv s) (h : Step c s s') (hloop : s'.output.phase.Looping) :
    Live s' := by
  have hN : 0 < c.numThreads := Nat.lt_of_lt_of_le (by decide) c.two_le_numThreads
  have hstands := hinv.chained.stands
  rw [StageA.Stands] at hstands
  cases h with
  | front hfront =>
    have hlive := hinv.live hloop
    refine { hlive with
      slots_open := hfront.open hlive.slots_open
      counts := hfront.counts hlive.counts
      complete := fun hphase => hfront.complete hN hphase hlive.slots_open (hlive.complete hphase)
      upstream := fun hforward i hi hlt => ?_ }
    have hphase : s.stageA.phase ≠ .stopped := by
      intro hphase
      rw [hphase] at hforward
      exact hforward
    refine (hlive.upstream hforward i hi hlt).imp (fun h => hfront.carries hphase ?_ h) id
    rintro item _ hid ⟨r, -, rfl⟩
    exact hid
  | accept hphase hnext _ =>
    have hlive := hinv.live hloop
    have hopen : s.stageA.phase ≠ .stopped := by simp [hphase]
    rw [hphase] at hstands
    refine hlive.sending hopen (by simp [StageA.accept]) rfl (fun _ i hi hlt => ?_)
      (by simp [StageA.accept])
    simp only [StageA.accept, List.length_append, List.length_singleton] at hi
    have hforward : s.stageA.phase.Forwarding := by simp [hphase, StageAPhase.Forwarding]
    refine (hlive.upstream hforward i (by omega) hlt).imp id fun h => ?_
    exact Reorder.exists_mem_remove hnext (by omega) h
  | refuse hphase hnext hchecks =>
    have hlive := hinv.live hloop
    have hopen : s.stageA.phase ≠ .stopped := by simp [hphase]
    obtain ⟨item, hitem, -, hdecode⟩ := hinv.decode_next hphase hnext hchecks
    rw [hphase] at hstands
    refine hlive.sending hopen (by simp) rfl False.elim ?_
    rintro _ ⟨⟩
    exact .decode hinv.chained.chain hstands.2 hitem hdecode
  | @recvOutcome o rest hphase hnext hresult =>
    have hlive := hinv.live hloop
    have hopen : s.stageA.phase ≠ .stopped := by simp [hphase]
    have hcomplete := hlive.complete hopen
    refine { hlive with
      complete := fun _ => ⟨hcomplete.drained, hcomplete.rest_eq⟩
      drained := hlive.drained.of_running hopen
      upstream := fun _ i hi hlt => ?_
      stopped := fun hstopped => Or.inr (Or.inr ?_)
      failing := ?_ }
    · have hforward : s.stageA.phase.Forwarding := by simp [hphase, StageAPhase.Forwarding]
      rcases hlive.upstream hforward i hi hlt with (hpending | hcarries) | hmem
      · exact Or.inl (Or.inl hpending)
      · rcases hcarries.leave hresult with hid | hcarries
        · exact Or.inr ⟨o, Reorder.mem_insert_self, hid⟩
        · exact Or.inl (Or.inr hcarries)
      · exact Or.inr (Reorder.exists_mem_insert hmem)
    · simp only at hstopped
      split_ifs at hstopped with hlt
      exact Nat.le_of_not_lt hlt
    · intro e he
      simp only at he
      split_ifs at he
  | workerClosed hphase hnext hresult hstopped =>
    have hlive := hinv.live hloop
    have hopen : s.stageA.phase ≠ .stopped := by simp [hphase]
    exact hlive.sending hopen (by simp) rfl False.elim fun e _ =>
      hinv.fails_of_closed hlive hphase hnext hresult hstopped e
  | @sendJob job hphase _ _ =>
    have hlive := hinv.live hloop
    have hopen : s.stageA.phase ≠ .stopped := by simp [hphase]
    rw [hphase] at hstands
    obtain ⟨before, r, haccepted, hnextId, -, rfl⟩ := hstands
    refine { hlive with
      complete := fun _ => hlive.complete hopen
      drained := fun i hi => absurd hi (hlive.drained.running hopen i)
      upstream := fun _ => hlive.upstream (by simp [hphase, StageAPhase.Forwarding])
      downstream := fun i hi hlt => ?_
      stopped := fun hstopped => Or.inr (Or.inl ?_)
      failing := ?_
      errors := hlive.errors.put ⟨before, r, haccepted ▸ hinv.chained.chain, rfl⟩ }
    · by_cases hlast : i = s.stageA.nextId
      · exact Or.inl (Pool.carries_put (hnextId.symm.trans hlast.symm))
      · simp only at hlt
        exact (hlive.downstream i hi (by omega)).imp Pool.Carries.put id
    · by_cases hfinal : (jobAt before r).finalBlock = true
      · exact ⟨before, r, haccepted, hfinal, by simp only; omega⟩
      · simp only [if_neg hfinal] at hstopped
        cases hstopped
    · intro e he
      simp only at he
      split_ifs at he
  | jobLost hphase hstopped =>
    have hlive := hinv.live hloop
    have hopen : s.stageA.phase ≠ .stopped := by simp [hphase]
    exact absurd (hstopped ⟨0, c.resolveThreads_pos⟩) (hlive.drained.running hopen _)
  | @sendErr e hphase _ _ =>
    have hlive := hinv.live hloop
    have hopen : s.stageA.phase ≠ .stopped := by simp [hphase]
    refine { hlive with
      complete := fun hphase' => absurd rfl hphase'
      drained := fun i hi => absurd hi (hlive.drained.running hopen i)
      upstream := fun hforward => hforward.elim
      downstream := fun i hi hlt => (hlive.downstream i hi hlt).imp Pool.Carries.emit id
      stopped := fun _ => Or.inl (Pool.carries_emit (by simp))
      failing := by simp
      errors := hlive.errors.emit ?_ }
    rintro _ ⟨⟩
    exact hlive.failing e hphase
  | errLost _ hclosed => exact absurd hloop.listening hclosed
  | resolve hresolvers =>
    have hlive := hinv.live hloop
    have hlistening := hloop.listening
    refine { hlive with
      drained := hresolvers.drained hlistening hlive.drained
      downstream := fun i hi hlt =>
        (hlive.downstream i hi hlt).imp (hresolvers.carries hlistening ?_) id
      stopped := fun hstopped =>
        (hlive.stopped hstopped).imp (hresolvers.carries hlistening (by simp)) id
      errors := hresolvers.every ?_ hlive.errors }
    · rintro job _ rfl rfl d hd
      exact (resolveJob_ok hd).1
    · rintro _ _ ⟨before, r, hchain, rfl⟩ rfl e he
      exact .resolve hchain he
  | take hphase hnext _ =>
    have hlive := hinv.live (by simp [hphase, OutputPhase.Looping])
    refine { hlive with downstream := fun i hi hlt => ?_ }
    simp only [Output.position, Output.take] at hi
    have hposition : s.output.position ≤ i := by
      simp only [Output.position, hphase]
      omega
    exact (hlive.downstream i hposition hlt).imp id fun h =>
      Reorder.exists_mem_remove hnext (by omega) h
  | @recvDone d rest hphase _ _ hdone =>
    have hlive := hinv.live (by simp [hphase, OutputPhase.Looping])
    refine { hlive with
      drained := hlive.drained
      downstream := fun i hi hlt => ?_
      stopped := fun hstopped => (hlive.stopped hstopped).imp (fun herror => ?_) id
      errors := (hlive.errors.leave hdone).2 }
    · rcases hlive.downstream i hi hlt with hcarries | hmem
      · rcases hcarries.leave hdone with hid | hcarries
        · exact Or.inr ⟨d, Reorder.mem_insert_self, hid d rfl⟩
        · exact Or.inl hcarries
      · exact Or.inr (Reorder.exists_mem_insert hmem)
    · exact (Pool.Carries.leave herror hdone).resolve_left fun h => h d rfl
  | @deliver bytes final hphase _ =>
    have hlive := hinv.live (by simp [hphase, OutputPhase.Looping])
    cases final with
    | true => exact hloop.elim
    | false =>
      have hlt := hinv.output.position_le (by simp [hphase, OutputPhase.Looping])
      have hadmitted := hinv.sourced.admitted
      simp only [Output.position, hphase] at hlt
      refine { hlive with
        slots_open := hlive.slots_open.release
        counts := hlive.counts.release (by omega)
        complete := fun hopen => ⟨(hlive.complete hopen).drained, (hlive.complete hopen).rest_eq⟩
        upstream := hlive.upstream
        downstream := fun i hi => hlive.downstream i ?_ }
      simp only [Output.position, hphase]
      simpa only [Output.position, Bool.false_eq_true, if_false] using hi
  | reject _ _ _ => exact hloop.elim
  | finish _ _ _ => exact hloop.elim
  | recvErr _ _ _ _ => exact hloop.elim
  | resolveClosed _ _ _ _ _ _ => exact hloop.elim
  | sinkClosed _ _ => exact hloop.elim
  | dropDone _ => exact hloop.elim
  | shutdown _ => exact hloop.elim
  | join _ _ _ _ => exact hloop.elim

section Delivery

variable {accepted accepted' : List WorkResult} {received : List (List UInt8)} {out : Output}
  {rs : List WorkResult} {ds : List ResolveDone}

/-- What the output stage holds stays right while more chunks are accepted. -/
theorem Output.Holds.mono (h : out.Holds c accepted rs ds) (haccepted : accepted <+: accepted') :
    out.Holds c accepted' rs ds :=
  { h with taken := h.taken.trans haccepted }

/-- Why the output stage has left stays right while more chunks are accepted. -/
theorem Output.Left.mono (h : out.Left c accepted received) (haccepted : accepted <+: accepted') :
    out.Left c accepted' received := by
  rcases h with hclosed | herror | ⟨rs, ds, hholds, hrest⟩
  · exact Or.inl hclosed
  · exact Or.inr (Or.inl herror)
  · exact Or.inr (Or.inr ⟨rs, ds, hholds.mono haccepted, hrest⟩)

/-- Leaving is not undone. -/
theorem Output.Left.setPhase (h : out.Left c accepted received) (phase : OutputPhase) :
    Output.Left c accepted received { out with phase := phase } := by
  rcases h with hclosed | herror | ⟨rs, ds, hholds, hrest⟩
  · exact Or.inl hclosed
  · exact Or.inr (Or.inl herror)
  · exact Or.inr (Or.inr ⟨rs, ds, { hholds with }, hrest⟩)

/-- Where the output stage stands stays right while more chunks are accepted. -/
theorem Output.Stands.mono (h : out.Stands c accepted received)
    (haccepted : accepted <+: accepted') : out.Stands c accepted' received := by
  unfold Output.Stands at h ⊢
  cases hphase : out.phase with
  | drain =>
    rw [hphase] at h
    obtain ⟨rs, ds, hholds, hrest⟩ := h
    exact ⟨rs, ds, hholds.mono haccepted, hrest⟩
  | deliver bytes final =>
    rw [hphase] at h
    obtain ⟨rs, r, ds, d, hholds, hrest⟩ := h
    exact ⟨rs, r, ds, d, hholds.mono haccepted, hrest⟩
  | returned r =>
    rw [hphase] at h
    exact ⟨h.1.mono haccepted, h.2⟩
  | leave =>
    rw [hphase] at h
    exact Output.Left.mono h haccepted
  | closing =>
    rw [hphase] at h
    exact Output.Left.mono h haccepted
  | joining =>
    rw [hphase] at h
    exact Output.Left.mono h haccepted

/-- The chunk that the output stage takes from its map is the next one of the chain. -/
theorem Inv.resolves_next (hinv : Inv s) {d : ResolveDone} {rest : List ResolveDone}
    (hnext : Reorder.remove ResolveDone.id s.output.nextId s.output.reorder = some (d, rest))
    (hholds : s.output.Holds c s.stageA.accepted rs ds) (hnextId : s.output.nextId = ds.length) :
    ∃ r, rs ++ [r] <+: s.stageA.accepted ∧ Resolves c (rs ++ [r]) (ds ++ [d]) ∧
      d.finalBlock = r.finalBlock ∧ d.memberBoundaries = r.memberBoundaries := by
  obtain ⟨hd, hid⟩ := Reorder.remove_eq_some hnext
  obtain ⟨_, ⟨before, r, hbefore, -, rfl⟩, hjob⟩ := hinv.resolving.reorder d hd
  obtain ⟨hjobId, hfinal, hboundaries⟩ := resolveJob_ok hjob
  have hlength : before.length = rs.length := by
    rw [← hholds.resolves.length_eq, ← hnextId, ← hid, hjobId]
    rfl
  obtain rfl : before = rs := by
    have h := List.prefix_of_prefix_length_le ((List.prefix_append before [r]).trans hbefore)
      hholds.taken hlength.le
    exact h.eq_of_length hlength
  exact ⟨r, hbefore, .snoc hholds.resolves hjob, hfinal, hboundaries⟩

/-- Taking a chunk adds it to the totals. -/
theorem Output.Holds.take (h : out.Holds c accepted rs ds) {r : WorkResult} {d : ResolveDone}
    {m : OpenMember} {phase : OutputPhase} {rest : List ResolveDone}
    (htaken : rs ++ [r] <+: accepted) (hresolves : Resolves c (rs ++ [r]) (ds ++ [d]))
    (hstitch : stitch c.crc d out.member = .ok m) :
    Output.Holds c accepted { out.take d rest with phase := phase, member := m } (rs ++ [r])
      (ds ++ [d]) where
  taken := htaken
  resolves := hresolves
  stitched := by
    rw [stitchAll_snoc, h.stitched]
    exact hstitch
  totalUc_eq := by
    simp only [Output.take]
    rw [h.totalUc_eq, sentBytes, sentBytes, List.map_append, List.flatten_append,
      List.length_append]
    simp
  sinkClosed_eq := h.sinkClosed_eq
  lastErr_eq := h.lastErr_eq

end Delivery

/-- Every step keeps the account of the output stage. -/
theorem Step.output (hinv : Inv s) (h : Step c s s') :
    s'.output.Stands c s'.stageA.accepted s'.sink.received := by
  have hstands := hinv.output
  cases h with
  | accept _ _ _ => exact hstands.mono (List.prefix_append _ _)
  | take hphase hnext hstitch =>
    rw [Output.Stands, hphase] at hstands
    obtain ⟨rs, ds, hholds, hopen, hreceived, hnextId, hsent, hfinalByte⟩ := hstands
    obtain ⟨r, htaken, hresolves, hfinal, hboundaries⟩ :=
      hinv.resolves_next hnext hholds hnextId
    refine ⟨rs, r, ds, _, hholds.take htaken hresolves hstitch, hopen, hreceived, hnextId, hsent,
      rfl, hfinal, ?_⟩
    simp only [Output.take, finalByteOf, hfinal, hboundaries, hfinalByte]
    congr 1
    cases r.memberBoundaries.getLast? <;> rfl
  | reject hphase hnext hstitch =>
    rw [Output.Stands, hphase] at hstands
    obtain ⟨rs, ds, hholds, hopen, hreceived, hnextId, hsent, hfinalByte⟩ := hstands
    obtain ⟨r, htaken, hresolves, -, -⟩ := hinv.resolves_next hnext hholds hnextId
    refine Or.inr (Or.inl ⟨_, hholds.sinkClosed_eq, rfl,
      .stitch (hinv.chained.chain.of_prefix htaken) hresolves ?_⟩)
    rw [stitchAll_snoc, hholds.stitched]
    exact hstitch
  | finish hphase _ hend =>
    rw [Output.Stands, hphase] at hstands
    obtain ⟨rs, ds, hholds, hopen, hreceived, hnextId, hsent, hfinalByte⟩ := hstands
    refine Or.inr (Or.inr ⟨rs, ds, { hholds with }, hreceived, hsent, Or.inr ⟨hopen, ?_,
      hfinalByte⟩⟩)
    rwa [← hholds.resolves.length_eq, ← hnextId]
  | recvDone hphase _ _ _ =>
    rw [Output.Stands, hphase] at hstands
    obtain ⟨rs, ds, hholds, hrest⟩ := hstands
    simp only [Output.Stands, hphase]
    exact ⟨rs, ds, { hholds with }, hrest⟩
  | recvErr hphase _ _ hdone =>
    rw [Output.Stands, hphase] at hstands
    obtain ⟨rs, ds, hholds, -⟩ := hstands
    have hlive := hinv.live (by simp [hphase, OutputPhase.Looping])
    exact Or.inr (Or.inl ⟨_, hholds.sinkClosed_eq, rfl, (hlive.errors.leave hdone).1 _ rfl⟩)
  | resolveClosed hphase hnext hmore hdone hstageA hresolvers =>
    exact absurd hresolvers (hinv.not_closed hphase hnext hmore hdone hstageA)
  | @deliver bytes final hphase _ =>
    rw [Output.Stands, hphase] at hstands
    obtain ⟨rs, r, ds, d, hholds, hopen, hreceived, hnextId, hsent, rfl, rfl, hfinalByte⟩ := hstands
    have hreceived' : s.sink.received ++ [d.chunk.bytes] = sentBytes (ds ++ [d]) := by
      rw [hreceived, sentBytes, sentBytes, List.map_append, List.map_singleton]
    have hlength : (ds ++ [d]).length = ds.length + 1 := by simp
    cases hfinal : r.finalBlock with
    | true =>
      simp only [if_true, Output.Stands]
      exact Or.inr (Or.inr ⟨rs ++ [r], ds ++ [d], { hholds with }, hreceived',
        by rw [hsent, hlength],
        Or.inl ⟨rs, r, rfl, hfinal, hfinalByte⟩⟩)
    | false =>
      simp only [Bool.false_eq_true, if_false, Output.Stands]
      refine ⟨rs ++ [r], ds ++ [d], { hholds with }, ?_, hreceived', by rw [hnextId, hlength],
        by rw [hsent, hlength], ?_⟩
      · intro r' hr'
        rcases List.mem_append.mp hr' with hr' | hr'
        · exact hopen r' hr'
        · rwa [List.mem_singleton.mp hr']
      · rw [hfinalByte, finalByteOf, hfinal]
        rfl
  | sinkClosed _ _ => exact Or.inl rfl
  | dropDone hphase =>
    rw [Output.Stands, hphase] at hstands
    exact Output.Left.setPhase hstands _
  | shutdown hphase =>
    rw [Output.Stands, hphase] at hstands
    exact Output.Left.setPhase hstands _
  | join hphase _ _ _ =>
    rw [Output.Stands, hphase] at hstands
    exact ⟨Output.Left.setPhase hstands _, _, rfl⟩
  | _ => exact hstands

/-- Every step keeps the invariant. -/
theorem Step.inv (hinv : Inv s) (h : Step c s s') : Inv s' :=
  ⟨h.sourced hinv, h.chained hinv, h.resolving hinv, h.output hinv, h.live hinv⟩

/-- The pipeline does not see that its consumer has gone before it sends. -/
theorem Hangup.inv (hinv : Inv s) (h : Hangup c s s') : Inv s' := by
  cases h
  exact ⟨hinv.sourced, hinv.chained, ⟨hinv.resolving.pool, hinv.resolving.reorder⟩, hinv.output,
    fun hloop => { hinv.live hloop with }⟩

/-- The invariant holds at the start. -/
theorem inv_init (c : Config) : Inv (init c) where
  sourced := ⟨Front.tracks_start, by simp [init], le_rfl⟩
  chained := by
    refine ⟨.nil, rfl, rfl, ?_⟩
    simp only [StageA.Stands, init]
    split_ifs
    · exact ⟨rfl, by simp [Unfinished]⟩
    · exact le_rfl
  resolving := ⟨Pool.every_start, by simp [init]⟩
  output := ⟨[], [], ⟨List.nil_prefix, .nil, rfl, rfl, rfl, rfl⟩, by simp [Unfinished], rfl, rfl,
    rfl, rfl⟩
  live _ :=
    { slots_open := by
        rintro _ hslots
        obtain ⟨max, -, rfl⟩ := Option.map_eq_some_iff.mp hslots
        rfl
      counts := by
        rintro _ hslots
        obtain ⟨max, -, rfl⟩ := Option.map_eq_some_iff.mp hslots
        exact ⟨rfl, Nat.zero_le _, Nat.lt_of_lt_of_le Nat.one_pos (Nat.le_max_right _ _)⟩
      complete := fun _ => Front.complete_start
      drained := Pool.drained_start
      upstream := fun _ i _ hlt =>
        Or.inl (Or.inl ⟨c.items[i], List.getElem_mem hlt,
          c.items_id i _ (List.getElem?_eq_getElem hlt)⟩)
      downstream := fun i _ hlt => absurd hlt (Nat.not_lt_zero i)
      stopped := fun hstopped => by
        refine Or.inr (Or.inr ?_)
        simp only [init] at hstopped ⊢
        split_ifs at hstopped with hlt
        exact Nat.le_of_not_lt hlt
      failing := fun e he => by
        simp only [init] at he
        split_ifs at he
      errors := Pool.every_start }

/-- A run of the threads and of the consumer. -/
def Move (c : Config) (s s' : State c) : Prop := Step c s s' ∨ Hangup c s s'

/-- The invariant holds in every state, whatever the consumer does. -/
theorem inv_of_reaches (h : Reaches (Move c) (init c) s) : Inv s :=
  h.invariant Inv (fun _ _ hinv hmove => hmove.elim (Step.inv hinv) (Hangup.inv hinv)) (inv_init c)

/-- The invariant holds in every state of a run whose consumer listens. -/
theorem inv_of_reaches_step (h : Reaches (Step c) (init c) s) : Inv s :=
  h.invariant Inv (fun _ _ => Step.inv) (inv_init c)

/-- With an open sink the output stage never finds it closed. -/
theorem sinkClosed_of_reaches (h : Reaches (Step c) (init c) s) :
    s.sink.isOpen = true ∧ s.output.sinkClosed = false := by
  refine h.invariant (fun s => s.sink.isOpen = true ∧ s.output.sinkClosed = false) ?_ ⟨rfl, rfl⟩
  rintro s s' ⟨hopen, hclosed⟩ hstep
  cases hstep with
  | sinkClosed _ hsink =>
    rw [hopen] at hsink
    cases hsink
  | _ => exact ⟨hopen, hclosed⟩

/-- What the call returns as long as the sink was open: the output of a whole chain, or an error
that the chain explains. -/
theorem Inv.returned (hinv : Inv s) (hclosed : s.output.sinkClosed = false)
    {res : Except Error (ℕ × ℕ × ℕ × ℕ)} (hreturned : s.Returned res) :
    (∃ rs r ds bc n, s.stageA.accepted = rs ++ [r] ∧ Succeeds c rs r ds bc ∧
      s.sink.received = sentBytes ds ∧
      res = .ok ((sentBytes ds).flatten.length, bc, ds.length, n)) ∨
    ∃ e, res = .error e ∧ Fails c e := by
  have hstands := hinv.output
  rw [State.Returned] at hreturned
  rw [Output.Stands, hreturned] at hstands
  obtain ⟨hleft, n, hres⟩ := hstands
  rcases hleft with hclosed' | ⟨e, -, herr, hfails⟩ | ⟨rs, ds, hholds, hreceived, hsent, hend⟩
  · rw [hclosed] at hclosed'
    cases hclosed'
  · rw [Output.result, hclosed, herr] at hres
    exact Or.inr ⟨e, hres, hfails⟩
  have hchain := hinv.chained.chain.of_prefix hholds.taken
  rw [Output.result, hclosed, hholds.lastErr_eq] at hres
  rcases hend with ⟨before, r, rfl, hfinal, hfinalByte⟩ | ⟨hopen, hlen, hfinalByte⟩
  · rw [hfinalByte, finalByteOf, if_pos hfinal] at hres
    cases hlast : r.memberBoundaries.getLast? with
    | none =>
      rw [hlast] at hres
      exact Or.inr ⟨_, hres, .noTrailer hchain hfinal (List.getLast?_eq_none_iff.mp hlast)⟩
    | some mb =>
      rw [hlast, hholds.totalUc_eq, hsent] at hres
      exact Or.inl ⟨before, r, ds, _, n, hinv.chained.chain.eq_of_final hholds.taken hfinal,
        ⟨hchain, hfinal, hholds.resolves, ⟨_, hholds.stitched⟩, mb, hlast, rfl⟩, hreceived, hres⟩
  · rw [hfinalByte] at hres
    exact Or.inr ⟨_, hres, .unfinished hchain (Nat.le_antisymm hchain.length_le hlen) hopen⟩

end Invariant

end Mmap

end Pipeline

end RustyRapidgzip
