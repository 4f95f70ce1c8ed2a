import RustyRapidgzip.Gzip.Concat
import RustyRapidgzip.Pipeline.ItemFits

/-!
# The tokens of the streaming decoder

The dispatcher takes a token for each item that it cuts, and the output stage puts one back
for each chunk that it comes to, in order. As long as the dispatcher runs no token is lost;
there is always room for the one that is put back, and every chunk between the dispatcher and
the sink holds one.
-/

namespace RustyRapidgzip

open Crc Threads Transition

namespace Pipeline

namespace Streaming

/-! ## The numbers of the items -/

/-- An item has the number it was cut with. -/
theorem emit_id (src : Source) (id itemStartBit endBit : ℕ) (isFinalRegion : Bool) :
    (emit src id itemStartBit endBit isFinalRegion).id = id := by
  unfold emit
  cases isFinalRegion <;> rfl

/-- What a round sends has the number of the round; the next one has the next number. -/
def RoundNumbers (st : DispatchState) (next : DispatchState ⊕ DispatchState) : Prop :=
  (∃ st', next = .inl st' ∧ st'.sent = st.sent ∧ st'.id = st.id) ∨
    ∃ sent, (nextState next).sent = st.sent ++ [sent] ∧ sent.item.id = st.id ∧
      ∀ st', next = .inl st' → st'.id = st.id + 1

/-- The final region has the dispatcher's number. -/
theorem finish_numbers {st : DispatchState} {src : Source} {next : DispatchState ⊕ DispatchState}
    (h : st.finish src = .ok next) : RoundNumbers st next := by
  unfold DispatchState.finish at h
  split at h
  · cases h
  · cases h
    exact Or.inr ⟨_, rfl, emit_id .., nofun⟩

/-- A round reads more, or sends one item. -/
theorem round_numbers {find : Finder} {chunkBits : ℕ} {st : DispatchState}
    {next : DispatchState ⊕ DispatchState} (h : dispatchRound find chunkBits st = .ok next) :
    RoundNumbers st next := by
  unfold dispatchRound at h
  simp only at h
  split at h
  · cases h
  split at h
  · cases h
  split at h
  · cases h
    refine Or.inr ⟨_, rfl, emit_id .., ?_⟩
    rintro _ ⟨⟩
    rfl
  · split at h
    · split at h
      · exact finish_numbers h
      · cases h
        exact Or.inl ⟨_, rfl, rfl, rfl⟩
    · exact finish_numbers h

/-- A round that sends nothing keeps the number. -/
theorem RoundNumbers.more {st st' : DispatchState} (h : RoundNumbers st (.inl st'))
    (hsent : st'.sent = st.sent) : st'.id = st.id := by
  rcases h with ⟨_, ⟨⟩, -, hid⟩ | ⟨sent, hsent', -⟩
  · exact hid
  · have hlength := congrArg List.length (hsent'.symm.trans hsent)
    simp at hlength

/-- A round that cuts an item gives it the number, and the next number follows. -/
theorem RoundNumbers.cut {st : DispatchState} {next : DispatchState ⊕ DispatchState} {sent : Sent}
    (h : RoundNumbers st next) (hsent : (nextState next).sent = st.sent ++ [sent]) :
    sent.item.id = st.id ∧ ∀ st', next = .inl st' → st'.id = st.id + 1 := by
  rcases h with ⟨st', rfl, hsame, -⟩ | ⟨sent', hsent', hid, hnext⟩
  · have hlength := congrArg List.length (hsame.symm.trans hsent)
    simp at hlength
  · obtain rfl : sent = sent' := by simpa using hsent.symm.trans hsent'
    exact ⟨hid, hnext⟩

/-- A resolved chunk has the number of its job. -/
theorem resolveJob_id {job : ResolveJob} {d : DecodeResult} (h : resolveJob job = .ok d) :
    d.id = job.id := by
  unfold resolveJob at h
  split at h
  · cases h
  · cases h
    rfl

/-! ## The invariant -/

/-- The number of the next item to be cut, until the dispatcher returns. -/
def Dispatcher.nextCut (d : Dispatcher) : Option ℕ :=
  match d.phase with
  | .start => some 0
  | .look st => some st.id
  | .recvToken item _ => some item.id
  | .send item _ => some (item.id + 1)
  | .returned _ => none

/-- The dispatcher has taken a token for each item before the next one. -/
def Dispatcher.Stands (d : Dispatcher) : Prop :=
  match d.phase with
  | .start => d.taken = 0
  | .look st => st.id = d.taken
  | .recvToken item next => item.id = d.taken ∧ ∀ st, next = .inl st → st.id = item.id + 1
  | .send item next => item.id + 1 = d.taken ∧ ∀ st, next = .inl st → st.id = item.id + 1
  | .returned _ => True

/-- The chunk that the dispatcher holds. -/
def Dispatcher.held (d : Dispatcher) : ℕ :=
  match d.phase with
  | .send _ _ => 1
  | _ => 0

/-- The chunk that stage A holds, or the error that came in its place. -/
def StageAPhase.held : StageAPhase → ℕ
  | .sendJob _ | .sendErr _ => 1
  | _ => 0

/-- The chunk that the output stage holds, or whose token it holds. -/
def OutputPhase.held : OutputPhase → ℕ
  | .deliver _ _ | .sendToken _ _ => 1
  | _ => 0

/-- The chunks between the dispatcher and the sink. -/
def State.chunks {c : Config} (s : State c) : ℕ :=
  s.dispatcher.held + s.workers.load + s.stageA.reorder.length + s.stageA.phase.held +
    s.resolvers.load + s.output.reorder.length + s.output.phase.held

/-- Everything on its way has a number for which a token was taken. -/
structure Numbered {c : Config} (s : State c) : Prop where
  dispatcher : s.dispatcher.Stands
  workers : s.workers.Every (fun item => item.id < s.dispatcher.taken)
    fun r => ∀ d, r = .ok d → d.id < s.dispatcher.taken
  stageA : ∀ d ∈ s.stageA.reorder, d.id < s.dispatcher.taken
  job : ∀ job, s.stageA.phase = .sendJob job → job.id < s.dispatcher.taken
  resolvers : s.resolvers.Every (fun job => job.id < s.dispatcher.taken)
    fun r => ∀ d, r = .ok d → d.id < s.dispatcher.taken
  output : ∀ d ∈ s.output.reorder, d.id < s.dispatcher.taken
  sending : 0 < s.output.phase.held → s.output.nextId < s.dispatcher.taken

/-- Putting a token back leaves the reorder buffer. -/
@[simp]
theorem Output.afterToken_reorder (out : Output) (sinkOk final : Bool) :
    (out.afterToken sinkOk final).reorder = out.reorder := by
  cases sinkOk <;> rfl

/-- One more token was put back. -/
@[simp]
theorem Output.afterToken_putBack (out : Output) (sinkOk final : Bool) :
    (out.afterToken sinkOk final).putBack = out.putBack + 1 := by
  cases sinkOk <;> rfl

/-- A token that was put back is not held any more. -/
@[simp]
theorem Output.afterToken_held (out : Output) (sinkOk final : Bool) :
    (out.afterToken sinkOk final).phase.held = 0 := by
  cases sinkOk <;> cases final <;> rfl

/-- The tokens that were taken are in the channel, or with the chunks. -/
structure Counted {c : Config} (s : State c) : Prop where
  chunks : s.chunks + s.output.putBack ≤ s.dispatcher.taken
  le : s.token.tokens + s.dispatcher.taken ≤ c.inflightCap + s.output.putBack
  eq : ¬s.dispatcher.Returned →
    s.token.tokens + s.dispatcher.taken = c.inflightCap + s.output.putBack
  looping : s.output.phase.Looping → s.output.putBack = s.output.nextId

section Invariant

variable {c : Config} {s s' : State c}

/-- The next item to be cut has the number of the next token. -/
theorem Dispatcher.Stands.nextCut_eq {d : Dispatcher} (h : d.Stands) {k : ℕ}
    (hk : d.nextCut = some k) : k = d.taken := by
  unfold Dispatcher.Stands at h
  unfold Dispatcher.nextCut at hk
  cases hphase : d.phase with
  | start =>
    rw [hphase] at h hk
    cases hk
    exact h.symm
  | look st =>
    rw [hphase] at h hk
    cases hk
    exact h
  | recvToken item next =>
    rw [hphase] at h hk
    cases hk
    exact h.1
  | send item next =>
    rw [hphase] at h hk
    cases hk
    exact h.1
  | returned r =>
    rw [hphase] at hk
    cases hk

/-- Taking a token lets the numbers go up by one. -/
theorem Numbered.mono {d : Dispatcher} (h : Numbered s) (hstands : d.Stands)
    (hle : s.dispatcher.taken ≤ d.taken) : Numbered { s with dispatcher := d } where
  dispatcher := hstands
  workers := h.workers.mono (fun _ hlt => Nat.lt_of_lt_of_le hlt hle)
    fun _ hlt d hd => Nat.lt_of_lt_of_le (hlt d hd) hle
  stageA d hd := Nat.lt_of_lt_of_le (h.stageA d hd) hle
  job job hjob := Nat.lt_of_lt_of_le (h.job job hjob) hle
  resolvers := h.resolvers.mono (fun _ hlt => Nat.lt_of_lt_of_le hlt hle)
    fun _ hlt d hd => Nat.lt_of_lt_of_le (hlt d hd) hle
  output d hd := Nat.lt_of_lt_of_le (h.output d hd) hle
  sending hheld := Nat.lt_of_lt_of_le (h.sending hheld) hle

/-- The dispatcher keeps the numbers of all items apart. -/
theorem DispatchStep.numbered (h : Numbered s) (hstep : DispatchStep c s s') : Numbered s' := by
  have hstands := h.dispatcher
  unfold Dispatcher.Stands at hstands
  cases hstep with
  | start hphase _ =>
    rw [hphase] at hstands
    exact h.mono hstands.symm le_rfl
  | badHeader _ _ => exact h.mono trivial le_rfl
  | readFails _ => exact h.mono trivial le_rfl
  | abort _ _ => exact h.mono trivial le_rfl
  | more hphase _ hround hsent =>
    rw [hphase] at hstands
    exact h.mono (((round_numbers hround).more hsent).trans hstands) le_rfl
  | cut hphase _ hround hsent =>
    rw [hphase] at hstands
    obtain ⟨hid, hnext⟩ := (round_numbers hround).cut hsent
    refine h.mono ⟨hid.trans hstands, ?_⟩ le_rfl
    rwa [hid]
  | fail _ _ _ => exact h.mono trivial le_rfl
  | wrapMore hphase _ _ hid =>
    rw [hphase] at hstands
    exact h.mono (hid.trans hstands) le_rfl
  | wrapCut hphase _ _ hid hnext =>
    rw [hphase] at hstands
    refine h.mono ⟨hid.trans hstands, ?_⟩ le_rfl
    rwa [hid]
  | recvToken hphase _ =>
    rw [hphase] at hstands
    obtain ⟨hid, hnext⟩ := hstands
    have hnumbered := h.mono (d := ⟨.send _ _, s.dispatcher.taken + 1⟩)
      ⟨congrArg (· + 1) hid, hnext⟩ (Nat.le_succ _)
    exact { hnumbered with }
  | tokenClosed _ _ _ => exact h.mono trivial le_rfl
  | @send item next hphase _ _ =>
    rw [hphase] at hstands
    obtain ⟨hid, hnext⟩ := hstands
    have hafter : Dispatcher.Stands { s.dispatcher with phase := afterSend next } := by
      cases next with
      | inl st => exact (hnext st rfl).trans hid
      | inr st => exact trivial
    have hnumbered := h.mono hafter le_rfl
    refine { hnumbered with workers := hnumbered.workers.put ?_ }
    show item.id < s.dispatcher.taken
    omega
  | lost _ _ => exact h.mono trivial le_rfl

/-- Stage A keeps the numbers of all items apart. -/
theorem StageAStep.numbered (h : Numbered s) (hstep : StageAStep c s s') : Numbered s' := by
  cases hstep with
  | accept _ hnext =>
    refine { h with
      stageA := fun d hd => h.stageA d (Reorder.mem_of_mem_remove hnext hd)
      job := ?_ }
    rintro _ ⟨⟩
    exact h.stageA _ (Reorder.remove_eq_some hnext).1
  | recvResult hphase _ _ hresult =>
    obtain ⟨hres, hworkers⟩ := h.workers.leave hresult
    refine { h with
      workers := hworkers
      stageA := fun d hd => ?_ }
    rcases Reorder.mem_of_mem_insert hd with rfl | hd
    · exact hres _ rfl
    · exact h.stageA d hd
  | recvErr _ _ _ hresult =>
    exact { h with
      workers := (h.workers.leave hresult).2
      job := nofun }
  | workersDone _ _ _ _ _ => exact { h with }
  | finish _ _ _ => exact { h with job := nofun }
  | @sendJob job hphase _ _ =>
    refine { h with
      job := fun job' hjob' => ?_
      resolvers := h.resolvers.put (h.job job hphase) }
    simp only at hjob'
    split at hjob' <;> cases hjob'
  | jobLost _ _ => exact { h with job := nofun }
  | sendErr _ _ _ =>
    exact { h with
      job := nofun
      resolvers := h.resolvers.emit nofun }
  | errLost _ _ => exact { h with job := nofun }

/-- The output stage keeps the numbers of all items apart. -/
theorem OutputStep.numbered (h : Numbered s) (hstep : OutputStep c s s') : Numbered s' := by
  cases hstep with
  | take _ hnext _ =>
    obtain ⟨hd, hid⟩ := Reorder.remove_eq_some hnext
    exact { h with
      output := fun d hd => h.output d (Reorder.mem_of_mem_remove hnext hd)
      sending := fun _ => hid ▸ h.output _ hd }
  | reject _ hnext _ =>
    exact { h with
      output := fun d hd => h.output d (Reorder.mem_of_mem_remove hnext hd)
      sending := fun hheld => absurd hheld (lt_irrefl 0) }
  | finish _ _ _ => exact { h with sending := fun hheld => absurd hheld (lt_irrefl 0) }
  | recvDone _ _ _ hdone =>
    obtain ⟨hd, hresolvers⟩ := h.resolvers.leave hdone
    refine { h with
      resolvers := hresolvers
      output := fun d' hd' => ?_ }
    rcases Reorder.mem_of_mem_insert hd' with rfl | hd'
    · exact hd _ rfl
    · exact h.output d' hd'
  | recvErr _ _ _ hdone =>
    exact { h with
      resolvers := (h.resolvers.leave hdone).2
      sending := fun hheld => absurd hheld (lt_irrefl 0) }
  | resolversDone _ _ _ _ _ _ => exact { h with }
  | deliver hphase _ =>
    exact { h with sending := fun _ => h.sending (by rw [hphase]; exact Nat.one_pos) }
  | sinkClosed hphase _ =>
    exact { h with sending := fun _ => h.sending (by rw [hphase]; exact Nat.one_pos) }
  | sendToken _ _ _ =>
    exact { h with
      output := by simpa using h.output
      sending := by simp }
  | tokenLost _ _ =>
    exact { h with
      output := by simpa using h.output
      sending := by simp }
  | teardown _ => exact { h with sending := fun hheld => absurd hheld (lt_irrefl 0) }
  | dropTokenTx _ => exact { h with sending := fun hheld => absurd hheld (lt_irrefl 0) }
  | dropDoneRx _ => exact { h with sending := fun hheld => absurd hheld (lt_irrefl 0) }
  | join _ _ _ _ _ => exact { h with sending := fun hheld => absurd hheld (lt_irrefl 0) }

/-- Every step keeps the numbers of all items apart. -/
theorem Step.numbered (h : Numbered s) (hstep : Step c s s') : Numbered s' := by
  cases hstep with
  | dispatch hstep => exact hstep.numbered h
  | work hworkers =>
    refine { h with workers := hworkers.every ?_ h.workers }
    rintro item _ hlt hwork d rfl
    rw [hwork.id_eq]
    exact hlt
  | stageA hstep => exact hstep.numbered h
  | resolve hresolvers =>
    refine { h with resolvers := hresolvers.every ?_ h.resolvers }
    rintro job _ hlt rfl d hd
    rw [resolveJob_id hd]
    exact hlt
  | output hstep => exact hstep.numbered h

/-- A dispatcher that runs has a next item to cut. -/
theorem Dispatcher.exists_nextCut {d : Dispatcher} (h : ¬d.Returned) :
    ∃ k, d.nextCut = some k := by
  obtain ⟨phase, taken⟩ := d
  cases phase with
  | returned r => exact absurd ⟨r, rfl⟩ h
  | _ => exact ⟨_, rfl⟩

/-- A dispatcher that will cut an item has not returned. -/
theorem Dispatcher.not_returned {d : Dispatcher} {k : ℕ} (h : d.nextCut = some k) :
    ¬d.Returned := by
  rintro ⟨r, hr⟩
  rw [Dispatcher.nextCut, hr] at h
  cases h

/-- The dispatcher makes no step after it has returned. -/
theorem DispatchStep.running (hstep : DispatchStep c s s') : ¬s.dispatcher.Returned := by
  rintro ⟨r, hr⟩
  cases hstep with
  | readFails hphase =>
    rw [hr] at hphase
    rcases hphase with hphase | ⟨st, hphase⟩ <;> cases hphase
  | _ => simp_all

/-- A step that only the dispatcher sees. -/
theorem Counted.of_dispatcher {d : Dispatcher} (h : Counted s)
    (htaken : d.taken = s.dispatcher.taken) (hheld : d.held ≤ s.dispatcher.held)
    (hrunning : ¬s.dispatcher.Returned) : Counted { s with dispatcher := d } where
  chunks := by
    have hchunks := h.chunks
    simp only [State.chunks] at hchunks ⊢
    omega
  le := by
    have hle := h.le
    simp only
    omega
  eq _ := by
    have heq := h.eq hrunning
    simp only
    omega
  looping := h.looping

/-- A step in which no chunk is added before the output stage. -/
theorem Counted.of_stageA {workers : Pool c.numThreads Item (Except Error DecodeResult)}
    {stageA : StageA}
    {resolvers : Pool c.resolveThreads ResolveJob (Except Error DecodeResult)} (h : Counted s)
    (hload : workers.load + stageA.reorder.length + stageA.phase.held + resolvers.load ≤
      s.workers.load + s.stageA.reorder.length + s.stageA.phase.held + s.resolvers.load) :
    Counted { s with workers := workers, stageA := stageA, resolvers := resolvers } where
  chunks := by
    have hchunks := h.chunks
    simp only [State.chunks] at hchunks ⊢
    omega
  le := h.le
  eq := h.eq
  looping := h.looping

/-- The dispatcher keeps count of the tokens. -/
theorem DispatchStep.counted (h : Counted s) (hstep : DispatchStep c s s') : Counted s' := by
  have hchunks := h.chunks
  have hle := h.le
  simp only [State.chunks] at hchunks
  have hrunning := hstep.running
  have heq := h.eq hrunning
  cases hstep with
  | recvToken hphase htoken =>
    simp only [hphase, Dispatcher.held] at hchunks
    refine ⟨?_, ?_, fun _ => ?_, h.looping⟩
    · simp only [State.chunks, Dispatcher.held]
      omega
    · simp only
      omega
    · simp only
      omega
  | @send item next hphase _ _ =>
    simp only [hphase, Dispatcher.held] at hchunks
    have hheld : Dispatcher.held { s.dispatcher with phase := afterSend next } = 0 := by
      cases next <;> rfl
    refine ⟨?_, hle, fun _ => heq, h.looping⟩
    simp only [State.chunks, hheld, Pool.load_put]
    omega
  -- the other steps leave the tokens and the chunks alone
  | _ => exact h.of_dispatcher rfl (Nat.zero_le _) hrunning

/-- Stage A keeps count of the tokens. -/
theorem StageAStep.counted (h : Counted s) (hstep : StageAStep c s s') : Counted s' := by
  cases hstep with
  | accept hphase hnext =>
    have hshort := Reorder.length_remove_lt hnext
    apply h.of_stageA
    simp only [hphase, StageAPhase.held]
    omega
  | @recvResult res rest hphase _ _ hresult =>
    have hload := Pool.load_leave hresult
    have hinsert : (Reorder.insert DecodeResult.id res s.stageA.reorder).length ≤ _ :=
      Reorder.length_insert_le
    apply h.of_stageA
    simp only
    omega
  | recvErr hphase _ _ hresult =>
    have hload := Pool.load_leave hresult
    apply h.of_stageA
    simp only [hphase, StageAPhase.held]
    omega
  | workersDone _ _ _ _ _ => exact h.of_stageA le_rfl
  | finish hphase _ _ =>
    apply h.of_stageA
    simp only [hphase, StageAPhase.held]
    exact le_rfl
  | @sendJob job hphase _ _ =>
    have hheld : (if job.finalBlock then StageAPhase.stopped else .drain).held = 0 := by
      split <;> rfl
    have hjob : StageAPhase.held (.sendJob job) = 1 := rfl
    apply h.of_stageA
    simp only [hphase, hjob, hheld, Pool.load_put]
    omega
  | jobLost hphase _ =>
    apply h.of_stageA
    simp only [hphase, StageAPhase.held]
    omega
  | sendErr hphase _ _ =>
    apply h.of_stageA
    simp only [hphase, StageAPhase.held, Pool.load_emit]
    omega
  | errLost hphase _ =>
    apply h.of_stageA
    simp only [hphase, StageAPhase.held]
    omega

/-- A step of the output stage that leaves the tokens alone. -/
theorem Counted.of_output {out : Output} {received : Mmap.Sink}
    {resolvers : Pool c.resolveThreads ResolveJob (Except Error DecodeResult)} (h : Counted s)
    (hload : resolvers.load + out.reorder.length + out.phase.held ≤
      s.resolvers.load + s.output.reorder.length + s.output.phase.held)
    (hputBack : out.putBack = s.output.putBack)
    (hlooping : out.phase.Looping → s.output.phase.Looping ∧ out.nextId = s.output.nextId) :
    Counted { s with resolvers := resolvers, output := out, sink := received } where
  chunks := by
    have hchunks := h.chunks
    simp only [State.chunks] at hchunks ⊢
    omega
  le := by
    have hle := h.le
    simp only
    omega
  eq hrunning := by
    have heq := h.eq hrunning
    simp only
    omega
  looping hloop := by
    obtain ⟨hloop', hnextId⟩ := hlooping hloop
    rw [hputBack, hnextId]
    exact h.looping hloop'

/-- The output stage has come to the end of a chunk, whose token it has put back or lost. -/
theorem Counted.afterToken {token : TokenChannel} {sinkOk final : Bool} (h : Counted s)
    (hphase : s.output.phase = .sendToken sinkOk final)
    (htokens : token.tokens ≤ s.token.tokens + 1)
    (heq : ¬s.dispatcher.Returned → token.tokens = s.token.tokens + 1) :
    Counted { s with token := token, output := s.output.afterToken sinkOk final } := by
  have hchunks := h.chunks
  have hle := h.le
  have hlooping := h.looping (by rw [hphase]; trivial)
  simp only [State.chunks, hphase, OutputPhase.held] at hchunks
  refine ⟨?_, ?_, fun hrunning => ?_, fun hloop => ?_⟩
  · simp only [State.chunks, Output.afterToken_reorder, Output.afterToken_putBack,
      Output.afterToken_held]
    omega
  · simp only [Output.afterToken_putBack]
    omega
  · have heq' := h.eq hrunning
    have htoken := heq hrunning
    simp only [Output.afterToken_putBack]
    omega
  · cases sinkOk with
    | false => exact hloop.elim
    | true => exact congrArg (· + 1) hlooping

/-- The output stage keeps count of the tokens. -/
theorem OutputStep.counted (h : Counted s) (hstep : OutputStep c s s') : Counted s' := by
  cases hstep with
  | take hphase hnext _ =>
    have hshort := Reorder.length_remove_lt hnext
    refine h.of_output ?_ rfl fun _ => ⟨by rw [hphase]; trivial, rfl⟩
    simp only [hphase, OutputPhase.held]
    omega
  | reject hphase hnext _ =>
    have hshort := Reorder.length_remove_lt hnext
    refine h.of_output ?_ rfl False.elim
    simp only [hphase, OutputPhase.held]
    omega
  | finish hphase _ _ =>
    refine h.of_output ?_ rfl False.elim
    simp only [hphase, OutputPhase.held]
    exact le_rfl
  | @recvDone d rest hphase _ _ hdone =>
    have hload := Pool.load_leave hdone
    have hinsert : (Reorder.insert DecodeResult.id d s.output.reorder).length ≤ _ :=
      Reorder.length_insert_le
    refine h.of_output ?_ rfl fun hloop => ⟨hloop, rfl⟩
    simp only
    omega
  | recvErr hphase _ _ hdone =>
    have hload := Pool.load_leave hdone
    refine h.of_output ?_ rfl False.elim
    simp only [hphase, OutputPhase.held]
    omega
  | resolversDone _ _ _ _ _ _ => exact h.of_output le_rfl rfl fun hloop => ⟨hloop, rfl⟩
  | deliver hphase _ =>
    refine h.of_output ?_ rfl fun _ => ⟨by rw [hphase]; trivial, rfl⟩
    simp only [hphase, OutputPhase.held]
    exact le_rfl
  | sinkClosed hphase _ =>
    refine h.of_output ?_ rfl fun _ => ⟨by rw [hphase]; trivial, rfl⟩
    simp only [hphase, OutputPhase.held]
    exact le_rfl
  | sendToken hphase _ _ => exact h.afterToken hphase le_rfl fun _ => rfl
  | tokenLost hphase hreturned =>
    exact h.afterToken hphase (Nat.le_succ _) fun hrunning => absurd hreturned hrunning
  | teardown hphase =>
    have hcounted : Counted { s with output := { s.output with phase := .dropTokenTx } } :=
      h.of_output (Nat.add_le_add_left (Nat.zero_le _) _) rfl False.elim
    exact ⟨hcounted.chunks, hcounted.le, hcounted.eq, hcounted.looping⟩
  | dropTokenTx hphase =>
    have hcounted : Counted { s with output := { s.output with phase := .dropDoneRx } } :=
      h.of_output (Nat.add_le_add_left (Nat.zero_le _) _) rfl False.elim
    exact ⟨hcounted.chunks, hcounted.le, hcounted.eq, hcounted.looping⟩
  | dropDoneRx _ => exact h.of_output (Nat.add_le_add_left (Nat.zero_le _) _) rfl False.elim
  | join _ _ _ _ _ => exact h.of_output (Nat.add_le_add_left (Nat.zero_le _) _) rfl False.elim

/-- Every step keeps count of the tokens. -/
theorem Step.counted (h : Counted s) (hstep : Step c s s') : Counted s' := by
  cases hstep with
  | dispatch hstep => exact hstep.counted h
  | work hworkers =>
    have hload := hworkers.load_le
    apply h.of_stageA
    omega
  | stageA hstep => exact hstep.counted h
  | resolve hresolvers =>
    have hload := hresolvers.load_le
    apply h.of_stageA
    omega
  | output hstep => exact hstep.counted h

/-- At the start there is no item. -/
theorem numbered_init (c : Config) : Numbered (init c) where
  dispatcher := rfl
  workers := Pool.every_start
  stageA := by simp [init]
  job := nofun
  resolvers := Pool.every_start
  output := by simp [init]
  sending hheld := absurd hheld (lt_irrefl 0)

/-- At the start all tokens are in the channel. -/
theorem counted_init (c : Config) : Counted (init c) where
  chunks := by simp [State.chunks, init, Pool.load_start, Dispatcher.held, StageAPhase.held,
    OutputPhase.held]
  le := le_rfl
  eq _ := rfl
  looping _ := rfl

/-- In every state the numbers of all items are apart. -/
theorem numbered_of_reaches (h : Reaches (Move c) (init c) s) : Numbered s := by
  refine h.invariant Numbered (fun s s' hnumbered hmove => ?_) (numbered_init c)
  rcases hmove with hstep | hhangup
  · exact hstep.numbered hnumbered
  · cases hhangup
    exact { hnumbered with }

/-- In every state the tokens are counted. -/
theorem counted_of_reaches (h : Reaches (Move c) (init c) s) : Counted s := by
  refine h.invariant Counted (fun s s' hcounted hmove => ?_) (counted_init c)
  rcases hmove with hstep | hhangup
  · exact hstep.counted hcounted
  · cases hhangup
    exact ⟨hcounted.chunks, hcounted.le, hcounted.eq, hcounted.looping⟩

/-- While the dispatcher runs, there is room for a token that is put back. -/
theorem Counted.room (h : Counted s) (hheld : 0 < s.output.phase.held)
    (hrunning : ¬s.dispatcher.Returned) : s.token.tokens < c.inflightCap := by
  have heq := h.eq hrunning
  have hchunks := h.chunks
  simp only [State.chunks] at hchunks
  omega

/-- The output stage never waits to put a token back. -/
theorem Counted.exists_sendToken (h : Counted s) {sinkOk final : Bool}
    (hphase : s.output.phase = .sendToken sinkOk final) :
    ∃ s', OutputStep c s s' ∧ s'.output.putBack = s.output.putBack + 1 := by
  by_cases hreturned : s.dispatcher.Returned
  · exact ⟨_, .tokenLost hphase hreturned, s.output.afterToken_putBack sinkOk final⟩
  · have hheld : 0 < s.output.phase.held := by rw [hphase]; exact Nat.one_pos
    exact ⟨_, .sendToken hphase hreturned (h.room hheld hreturned),
      s.output.afterToken_putBack sinkOk final⟩

/-- In every run: while the dispatcher runs, the tokens in the channel and those of the chunks that
the output stage has not come to the end of make up the cap, and after that no more than the cap.
The output stage never waits to put a token back. Every chunk between the dispatcher and the
sink has a token, so there are at most as many as the cap. While the dispatcher runs, the chunk
that the output stage waits for has a token, or is the next one to be cut. -/
theorem tokens_conserved (h : Reaches (Move c) (init c) s) :
    (s.output.putBack ≤ s.dispatcher.taken ∧
      s.token.tokens + (s.dispatcher.taken - s.output.putBack) ≤ c.inflightCap ∧
      (¬s.dispatcher.Returned →
        s.token.tokens + (s.dispatcher.taken - s.output.putBack) = c.inflightCap)) ∧
    (∀ sinkOk final, s.output.phase = .sendToken sinkOk final →
      ∃ s', OutputStep c s s' ∧ s'.output.putBack = s.output.putBack + 1) ∧
    (s.chunks ≤ s.dispatcher.taken - s.output.putBack ∧ s.chunks ≤ c.inflightCap) ∧
    (s.output.phase.Looping → s.output.putBack = s.output.nextId ∧
      s.output.nextId ≤ s.dispatcher.taken ∧
      (¬s.dispatcher.Returned → s.output.nextId < s.dispatcher.taken ∨
        s.dispatcher.nextCut = some s.output.nextId)) := by
  have hcounted := counted_of_reaches h
  have hchunks := hcounted.chunks
  have hle := hcounted.le
  refine ⟨⟨by omega, by omega, fun hrunning => ?_⟩, fun _ _ hphase =>
    hcounted.exists_sendToken hphase, ⟨by omega, by omega⟩, fun hloop => ?_⟩
  · have heq := hcounted.eq hrunning
    omega
  · have hputBack := hcounted.looping hloop
    refine ⟨hputBack, by omega, fun hrunning => ?_⟩
    by_cases hlt : s.output.nextId < s.dispatcher.taken
    · exact Or.inl hlt
    · obtain ⟨k, hk⟩ := Dispatcher.exists_nextCut hrunning
      have htaken := (numbered_of_reaches h).dispatcher.nextCut_eq hk
      exact Or.inr (by rw [hk, Option.some.injEq]; omega)

end Invariant

section OneMember

/-- A call with one worker, for a stream of one member. -/
def oneMember : Config where
  crc := crc32
  build := narrow16
  find := BlockFinder.findNextDynamicBlock
  chunkBytes := 0
  reads := [Gzip.storedMember]
  numThreads := 1

/-- The body of the member is the only item. -/
def oneItem : Item := ⟨0, Gzip.storedMember.drop 10, 0, U64_MAX, true, 0⟩

/-- What a worker makes of the item. -/
def oneResult : DecodeResult := ⟨0, ⟨[65], []⟩, true, [⟨⟨3554254475, 1, 6⟩, 1⟩]⟩

/-- What stage A makes of the result. -/
def oneJob : ResolveJob := ⟨0, ⟨[65], []⟩, [], true, [⟨⟨3554254475, 1, 6⟩, 1⟩]⟩

/-- The dispatcher has taken a token for the item. -/
def oneSending : State oneMember :=
  { init oneMember with
    dispatcher := ⟨.send oneItem
      (.inr ⟨⟨[], Gzip.storedMember.drop 10, 0, true, 24⟩, 0, 0, [⟨oneItem, 14⟩]⟩), 1⟩
    token := ⟨15, true⟩ }

/-- A state after the dispatcher has sent the item and has returned. -/
def oneState (workers : Pool 1 Item (Except Error DecodeResult)) (stageA : StageA)
    (resolvers : Pool 1 ResolveJob (Except Error DecodeResult)) (output : Output)
    (received : List (List UInt8)) : State oneMember :=
  ⟨⟨.returned (.ok 24), 1⟩, false, ⟨15, true⟩, workers, stageA, resolvers, output,
    ⟨true, received⟩⟩

/-- Stage A has received nothing. -/
def oneStageA : StageA := ⟨.drain, [], 0, [], false⟩

/-- The output stage has received nothing. -/
def oneOutput : Output := ⟨.drain, [], 0, 0, 0, ⟨[], 0⟩, none, false, 0⟩

/-- The dispatcher comes to send the item. -/
theorem reaches_oneSending : Reaches (Move oneMember) (init oneMember) oneSending := by
  have hstrip : (Source.new oneMember.reads).fillMore.2.stripFirstHeader =
      .ok ⟨[], Gzip.storedMember.drop 10, 0, false, 24⟩ := by decide +kernel
  have hround : oneMember.round ⟨⟨[], Gzip.storedMember.drop 10, 0, false, 24⟩, 0, 0, []⟩ =
      .ok (.inr ⟨⟨[], Gzip.storedMember.drop 10, 0, true, 24⟩, 0, 0, [⟨oneItem, 14⟩]⟩) := by
    decide +kernel
  have hlook : Reaches (Move oneMember) (init oneMember) _ :=
    .tail .refl (Or.inl (.dispatch (.start rfl hstrip)))
  have hcut := hlook.tail (Or.inl (.dispatch (.cut rfl rfl hround rfl)))
  have htaken := hcut.tail (Or.inl (.dispatch (.recvToken rfl (by decide))))
  exact htaken

/-- A run in which the dispatcher is done before the output stage has received the item. -/
theorem reaches_oneDispatched : Reaches (Move oneMember) (init oneMember)
    (oneState ⟨[oneItem], fun _ => .recv, []⟩ oneStageA (Pool.start 1 _ _) oneOutput []) := by
  have hsent := reaches_oneSending.tail (Or.inl (.dispatch (.send rfl
    (fun hstopped => by cases hstopped ⟨0, by decide⟩) (by decide))))
  exact hsent

/-- The job comes to the resolve pool. -/
theorem reaches_oneResolving : Reaches (Move oneMember) (init oneMember)
    (oneState (Pool.start 1 _ _) ⟨.stopped, [], 1, [65], false⟩ ⟨[oneJob], fun _ => .recv, []⟩
      oneOutput []) := by
  have hwork : Work narrow16 oneItem (.ok oneResult) :=
    Or.inl ⟨fun _ => 0, [], by decide +kernel⟩
  have hdecoded : Reaches (Move oneMember) (init oneMember)
      (oneState ⟨[], fun _ => .recv, [.ok oneResult]⟩ oneStageA (Pool.start 1 _ _) oneOutput
        []) := by
    refine Pool.one_worker_passes (¬Dispatcher.Returned ⟨.returned (.ok 24), 1⟩)
      (oneStageA.phase ≠ .stopped) (fun workers => Reaches (Move oneMember) (init oneMember)
        (oneState workers oneStageA (Pool.start 1 _ _) oneOutput [])) hwork nofun Nat.two_pos
      (fun p p' h hstep => ?_) reaches_oneDispatched
    exact h.tail (Or.inl (.work hstep))
  have hreceived := hdecoded.tail (Or.inl (.stageA (.recvResult rfl rfl rfl rfl)))
  have haccepted := hreceived.tail (Or.inl (.stageA (.accept rfl rfl)))
  have hsent := haccepted.tail (Or.inl (.stageA (.sendJob rfl
    (fun hstopped => by cases hstopped ⟨0, by decide⟩) (by decide))))
  exact hsent

/-- The chunk comes to the consumer. -/
theorem reaches_oneDelivered : Reaches (Move oneMember) (init oneMember)
    (oneState (Pool.start 1 _ _) ⟨.stopped, [], 1, [65], false⟩ (Pool.start 1 _ _)
      ⟨.leave, [], 1, 1, 1, ⟨[], 1⟩, none, false, 1⟩ [[65]]) := by
  have hresolve : Resolve oneJob (.ok oneResult) := rfl
  have hcheck : checkPieces crc32 [65] 0 [⟨⟨3554254475, 1, 6⟩, 1⟩] ⟨[], 0⟩ = .ok ⟨[], 1⟩ := by
    have hcrc : crc32.hash [65] = 3554254475 := by decide +kernel
    simp [checkPieces, validateMember, hcrc]
    rfl
  have hresolved : Reaches (Move oneMember) (init oneMember)
      (oneState (Pool.start 1 _ _) ⟨.stopped, [], 1, [65], false⟩
        ⟨[], fun _ => .recv, [.ok oneResult]⟩ oneOutput []) := by
    refine Pool.one_worker_passes (StageAPhase.stopped ≠ .stopped) oneOutput.phase.Listening
      (fun resolvers => Reaches (Move oneMember) (init oneMember)
        (oneState (Pool.start 1 _ _) ⟨.stopped, [], 1, [65], false⟩ resolvers oneOutput []))
      hresolve trivial Nat.two_pos (fun p p' h hstep => ?_) reaches_oneResolving
    exact h.tail (Or.inl (.resolve hstep))
  have hreceived := hresolved.tail (Or.inl (.output (.recvDone rfl rfl rfl rfl)))
  have htaken := hreceived.tail (Or.inl (.output (.take rfl rfl hcheck)))
  have hdelivered := htaken.tail (Or.inl (.output (.deliver rfl rfl)))
  have hlost := hdelivered.tail (Or.inl (.output (.tokenLost rfl ⟨_, rfl⟩)))
  exact hlost

/-- With a token taken, both parts make up the cap. -/
theorem tokens_conserved_oneMember :
    oneSending.token.tokens + (oneSending.dispatcher.taken - oneSending.output.putBack) =
      oneMember.inflightCap ∧ oneSending.output.nextId < oneSending.dispatcher.taken := by
  obtain ⟨⟨-, -, heq⟩, -, -, hawaited⟩ := tokens_conserved reaches_oneSending
  have hrunning : ¬oneSending.dispatcher.Returned := Dispatcher.not_returned rfl
  refine ⟨heq hrunning, ?_⟩
  obtain ⟨-, -, hnext⟩ := hawaited trivial
  rcases hnext hrunning with hlt | hcut
  · exact hlt
  · cases hcut

/-- A token that is put back after the dispatcher has returned is lost, before the threads are torn
down. -/
theorem exists_reachable_token_lost : ∃ s, Reaches (Move oneMember) (init oneMember) s ∧
    s.output.phase.BeforeTeardown ∧
    s.token.tokens + (s.dispatcher.taken - s.output.putBack) ≠ oneMember.inflightCap :=
  ⟨_, reaches_oneDelivered, trivial, by decide⟩

end OneMember

end Streaming

end Pipeline

end RustyRapidgzip
