import RustyRapidgzip.Pipeline.StreamLive

/-!
# The course of the dispatcher

The dispatcher of the streaming decoder runs next to the other threads, and waits for them. The
items that it sends are those that dispatching alone sends, in order, and it comes to its end
after as many rounds. Every step of a thread lowers a weight, so every run ends.
-/

namespace RustyRapidgzip

open Crc Threads Transition

namespace Pipeline

namespace Streaming

/-- What the dispatcher sends when nothing stops it. -/
def Config.dispatched (c : Config) : Except DispatchError (ℕ × List Sent) :=
  dispatch c.find c.chunkBytes c.reads

/-- The body behind the first header. -/
def Config.body (c : Config) : List UInt8 :=
  match Gzip.parseHeader c.reads.flatten with
  | .ok headerLen => c.reads.flatten.drop headerLen
  | .error _ => []

/-- A state of the dispatcher from which it goes on to send what is left. -/
structure OnCourse (c : Config) (st : DispatchState) : Prop where
  ready : Ready c.body c.reads.flatten.length st
  id_eq : st.id = st.sent.length
  leads : ∃ fuel final, Loop.iterate (.failed (.deflate .outOfFuel)) c.round fuel st = .ok final ∧
    c.dispatched = .ok (final.src.totalRead, final.sent)

/-- Where the dispatcher goes on after an item. -/
def Leads (c : Config) : DispatchState ⊕ DispatchState → Prop
  | .inl st => OnCourse c st
  | .inr st => c.dispatched = .ok (st.src.totalRead, st.sent)

/-- The item was cut, and is the last one so far. -/
def Cuts (c : Config) (item : Item) (next : DispatchState ⊕ DispatchState) : Prop :=
  Leads c next ∧ ∃ before sent, (nextState next).sent = before ++ [sent] ∧ sent.item = item ∧
    before.length = item.id

/-- The dispatcher is on its course. -/
def Dispatcher.OnCourse (c : Config) (d : Dispatcher) : Prop :=
  match d.phase with
  | .look st => Streaming.OnCourse c st
  | .recvToken item next | .send item next => Cuts c item next
  | _ => True

section Course

variable {c : Config} {s s' : State c} {st st' : DispatchState}
  {next : DispatchState ⊕ DispatchState}

/-- A chunk has a bit. -/
theorem Config.chunkBits_pos (c : Config) : 0 < chunkTarget c.chunkBytes * 8 := by
  have := chunkTarget_pos c.chunkBytes
  omega

/-- On its course a round of the dispatcher succeeds, and it stays on it. -/
theorem OnCourse.round (hfind : Answers c.find) (h : OnCourse c st) : ∃ next,
    c.round st = .ok next ∧ RoundNumbers st next ∧ Leads c next ∧
      ∀ st', next = .inl st' → todo c.body st' < todo c.body st := by
  obtain ⟨fuel, final, hiterate, hdispatched⟩ := h.leads
  have hready := Ready.round hfind c.chunkBits_pos h.ready
  cases fuel with
  | zero => cases hiterate
  | succ fuel =>
  cases hround : c.round st with
  | error e =>
    rw [Loop.iterate_fail hround] at hiterate
    cases hiterate
  | ok next =>
    have hnumbers := round_numbers hround
    have hround' : dispatchRound c.find (chunkTarget c.chunkBytes * 8) st = .ok next := hround
    rw [hround'] at hready
    refine ⟨next, rfl, hnumbers, ?_, ?_⟩
    · cases next with
      | inl st' =>
        rw [Loop.iterate_continue hround] at hiterate
        refine ⟨hready.1, ?_, fuel, final, hiterate, hdispatched⟩
        rcases hnumbers with ⟨_, ⟨⟩, hsent, hid⟩ | ⟨sent, hsent, -, hid⟩
        · rw [hid, hsent, h.id_eq]
        · have hsent' : st'.sent = st.sent ++ [sent] := hsent
          rw [hid st' rfl, hsent', h.id_eq, List.length_append, List.length_singleton]
      | inr st' =>
        rw [Loop.iterate_break hround] at hiterate
        cases hiterate
        exact hdispatched
    · rintro st' rfl
      exact hready.2.1

/-- What the source makes of the header is what the parser makes of all the bytes to come. -/
theorem parseHeader_of_stripFirstHeader (hreads : ∀ r ∈ c.reads, r ≠ []) {res : Except Error Source}
    (hstrip : (Source.new c.reads).fillMore.2.stripFirstHeader = res) :
    (∃ src headerLen, res = .ok src ∧ Gzip.parseHeader c.reads.flatten = .ok headerLen) ∨
      ∃ e, res = .error (.gzip e) ∧ Gzip.parseHeader c.reads.flatten = .error e := by
  obtain ⟨hmore, -, -⟩ := Source.fillMore_spec (Source.good_new hreads) rfl
  have hreturns := Source.returns_stripFirstHeader hmore.good hmore.base_eq
  have hpending : (Source.new c.reads).fillMore.2.pending = c.reads.flatten := hmore.pending_eq
  unfold Reparse.Returns at hreturns
  rw [hpending, hstrip] at hreturns
  cases hparse : Gzip.parseHeader c.reads.flatten with
  | ok headerLen =>
    rw [hparse] at hreturns
    obtain ⟨src, hok, -⟩ := hreturns
    exact Or.inl ⟨_, headerLen, hok, rfl⟩
  | error e =>
    rw [hparse] at hreturns
    exact Or.inr ⟨e, hreturns, rfl⟩

/-- A header that the source has stripped is one of all the bytes to come. -/
theorem exists_parseHeader (hreads : ∀ r ∈ c.reads, r ≠ []) {src : Source}
    (hstrip : (Source.new c.reads).fillMore.2.stripFirstHeader = .ok src) :
    ∃ headerLen, Gzip.parseHeader c.reads.flatten = .ok headerLen := by
  rcases parseHeader_of_stripFirstHeader hreads hstrip with ⟨_, headerLen, -, hparse⟩ | ⟨_, ⟨⟩, -⟩
  exact ⟨headerLen, hparse⟩

/-- A header that cannot be stripped is not one, or is cut off. -/
theorem exists_gzipError (hreads : ∀ r ∈ c.reads, r ≠ []) {e : Error}
    (hstrip : (Source.new c.reads).fillMore.2.stripFirstHeader = .error e) :
    ∃ e', e = .gzip e' := by
  rcases parseHeader_of_stripFirstHeader hreads hstrip with ⟨_, _, ⟨⟩, -⟩ | ⟨e', herror, -⟩
  exact ⟨e', Except.error.inj herror⟩

/-- What is dispatched tiles the body, and the whole source is read. -/
theorem Config.tiled (hfind : Answers c.find) (hreads : ∀ r ∈ c.reads, r ≠ []) {k : ℕ}
    {sent : List Sent} (h : c.dispatched = .ok (k, sent)) :
    k = c.reads.flatten.length ∧ Tiled c.body 0 0 sent := by
  have hdispatch := h
  unfold Config.dispatched dispatch at hdispatch
  cases hstrip : (Source.new c.reads).fillMore.2.stripFirstHeader with
  | error e =>
    rw [hstrip] at hdispatch
    cases hdispatch
  | ok src =>
    obtain ⟨headerLen, hparse⟩ := exists_parseHeader hreads hstrip
    rcases @dispatch_cases _ c.chunkBytes _ _ hfind hreads hparse with
      ⟨sent', hok, htiled⟩ | ⟨hfail, -⟩
    · rw [Config.dispatched, hok] at h
      cases h
      rw [Config.body, hparse]
      exact ⟨rfl, htiled⟩
    · rw [Config.dispatched, hfail] at h
      cases h

/-- Behind the header the dispatcher is on its course, unless a target overflows on it. -/
theorem onCourse_start (hfind : Answers c.find) (hreads : ∀ r ∈ c.reads, r ≠ [])
    (hover : c.dispatched ≠ .error .overflow) {src : Source}
    (hstrip : (Source.new c.reads).fillMore.2.stripFirstHeader = .ok src) :
    OnCourse c ⟨src, 0, 0, []⟩ := by
  obtain ⟨headerLen, hparse⟩ := exists_parseHeader hreads hstrip
  obtain ⟨src', hstrip', hready⟩ := exists_ready hreads hparse
  rw [hstrip] at hstrip'
  cases hstrip'
  obtain ⟨sent, hdispatch, -⟩ :=
    (@dispatch_cases _ c.chunkBytes _ _ hfind hreads hparse).resolve_right fun h => hover h.1
  refine ⟨?_, rfl, ?_⟩
  · rw [Config.body, hparse]
    exact hready
  · have hrun := hdispatch
    unfold dispatch at hrun
    simp only [hstrip] at hrun
    cases hiterate : Loop.iterate (.failed (.deflate .outOfFuel))
        (dispatchRound c.find (chunkTarget c.chunkBytes * 8)) (dispatchRounds src)
        ⟨src, 0, 0, []⟩ with
    | error e =>
      rw [hiterate] at hrun
      cases hrun
    | ok final =>
      rw [hiterate] at hrun
      exact ⟨_, final, hiterate, hdispatch.trans hrun.symm⟩

/-- The dispatcher stays on its course. -/
theorem DispatchStep.onCourse (hfind : Answers c.find) (hreads : ∀ r ∈ c.reads, r ≠ [])
    (hover : c.dispatched ≠ .error .overflow) (h : s.dispatcher.OnCourse c)
    (hstep : DispatchStep c s s') : s'.dispatcher.OnCourse c := by
  unfold Dispatcher.OnCourse at h
  cases hstep with
  | start _ hstrip => exact onCourse_start hfind hreads hover hstrip
  | badHeader _ _ => exact trivial
  | readFails _ => exact trivial
  | abort _ _ => exact trivial
  | more hphase _ hround hsent =>
    rw [hphase] at h
    obtain ⟨_, hround', -, hleads, -⟩ := h.round hfind
    rw [hround] at hround'
    cases hround'
    exact hleads
  | @cut st next sent hphase _ hround hsent =>
    rw [hphase] at h
    obtain ⟨_, hround', hnumbers, hleads, -⟩ := h.round hfind
    rw [hround] at hround'
    cases hround'
    exact ⟨hleads, st.sent, sent, hsent, rfl, by rw [(hnumbers.cut hsent).1, h.id_eq]⟩
  | fail _ _ _ => exact trivial
  | wrapMore hphase _ hround _ =>
    rw [hphase] at h
    obtain ⟨_, hround', -⟩ := h.round hfind
    rw [hround] at hround'
    cases hround'
  | wrapCut hphase _ hround _ _ =>
    rw [hphase] at h
    obtain ⟨_, hround', -⟩ := h.round hfind
    rw [hround] at hround'
    cases hround'
  | recvToken hphase _ =>
    rw [hphase] at h
    exact h
  | tokenClosed _ _ _ => exact trivial
  | @send item next hphase _ _ =>
    rw [hphase] at h
    cases next with
    | inl st => exact h.1
    | inr st => exact trivial
  | lost _ _ => exact trivial

/-- In every state the dispatcher is on its course. -/
theorem onCourse_of_reaches (hfind : Answers c.find) (hreads : ∀ r ∈ c.reads, r ≠ [])
    (hover : c.dispatched ≠ .error .overflow) (h : Reaches (Move c) (init c) s) :
    s.dispatcher.OnCourse c := by
  refine h.invariant (fun s => s.dispatcher.OnCourse c) (fun s s' h hmove => ?_) trivial
  rcases hmove with hstep | hhangup
  · cases hstep with
    | dispatch hstep => exact hstep.onCourse hfind hreads hover h
    | work _ => exact h
    | stageA hstep => cases hstep <;> exact h
    | resolve _ => exact h
    | output hstep => cases hstep <;> exact h
  · cases hhangup
    exact h

end Course

/-! ## Every run ends -/

/-- The steps that the dispatcher and its items still take, from where it goes on after one. -/
def afterWeight (body : List UInt8) : DispatchState ⊕ DispatchState → ℕ
  | .inl st => 15 * todo body st + 15
  | .inr _ => 0

/-- The steps that are left for the dispatcher, and for the items that it will send. -/
def Dispatcher.weight (c : Config) (d : Dispatcher) : ℕ :=
  match d.phase with
  | .start =>
    match (Source.new c.reads).fillMore.2.stripFirstHeader with
    | .ok src => 15 * todo c.body ⟨src, 0, 0, []⟩ + 16
    | .error _ => 1
  | .look st => 15 * todo c.body st + 15
  | .recvToken _ next => afterWeight c.body next + 13
  | .send _ next => afterWeight c.body next + 12
  | .returned _ => 0

/-- The steps of stage A that are left, and those of the resolve pool for what it holds. -/
def StageA.weight (a : StageA) : ℕ :=
  8 * a.reorder.length + (if a.closed then 0 else 1) +
    match a.phase with
    | .drain => 5
    | .sendJob _ => 12
    | .sendErr _ => 5
    | .stopped => 0

/-- The steps of the output stage that are left. -/
def Output.weight (out : Output) : ℕ :=
  3 * out.reorder.length + (if out.closed then 0 else 1) +
    match out.phase with
    | .drain => 5
    | .deliver _ _ => 7
    | .sendToken _ _ => 6
    | .leave => 4
    | .dropTokenTx => 3
    | .dropDoneRx => 2
    | .joining => 1
    | .returned _ => 0

/-- The steps that are left. -/
def State.weight {c : Config} (s : State c) : ℕ :=
  s.dispatcher.weight c + s.workers.weight 9 + s.stageA.weight + s.resolvers.weight 4 +
    s.output.weight

section Weight

variable {c : Config} {s s' : State c}

/-- What the dispatcher weighs behind an item. -/
theorem afterSend_weight (next : DispatchState ⊕ DispatchState) (taken : ℕ) :
    Dispatcher.weight c ⟨afterSend next, taken⟩ = afterWeight c.body next := by
  cases next <;> rfl

/-- A step of the dispatcher makes the state lighter. -/
theorem DispatchStep.weight_lt (hfind : Answers c.find) (h : s.dispatcher.OnCourse c)
    (hstep : DispatchStep c s s') :
    s'.dispatcher.weight c + s'.workers.weight 9 < s.dispatcher.weight c + s.workers.weight 9 := by
  unfold Dispatcher.OnCourse at h
  cases hstep with
  | start hphase hstrip =>
    simp only [Dispatcher.weight, hphase, hstrip]
    omega
  | badHeader hphase hstrip =>
    simp only [Dispatcher.weight, hphase, hstrip]
    omega
  | readFails hphase =>
    rcases hphase with hphase | ⟨st, hphase⟩
    · simp only [Dispatcher.weight, hphase]
      split <;> omega
    · simp only [Dispatcher.weight, hphase]
      omega
  | abort hphase _ =>
    simp only [Dispatcher.weight, hphase]
    omega
  | more hphase _ hround _ =>
    rw [hphase] at h
    obtain ⟨_, hround', -, -, htodo⟩ := h.round hfind
    rw [hround] at hround'
    cases hround'
    have hlt := htodo _ rfl
    simp only [Dispatcher.weight, hphase]
    omega
  | @cut st next sent hphase _ hround _ =>
    rw [hphase] at h
    obtain ⟨_, hround', -, -, htodo⟩ := h.round hfind
    rw [hround] at hround'
    cases hround'
    have hafter : afterWeight c.body next ≤ 15 * todo c.body st := by
      cases next with
      | inl st' =>
        have hlt := htodo st' rfl
        simp only [afterWeight]
        omega
      | inr _ => exact Nat.zero_le _
    simp only [Dispatcher.weight, hphase]
    omega
  | fail hphase _ _ =>
    simp only [Dispatcher.weight, hphase]
    omega
  | wrapMore hphase _ hround _ =>
    rw [hphase] at h
    obtain ⟨_, hround', -⟩ := h.round hfind
    rw [hround] at hround'
    cases hround'
  | wrapCut hphase _ hround _ _ =>
    rw [hphase] at h
    obtain ⟨_, hround', -⟩ := h.round hfind
    rw [hround] at hround'
    cases hround'
  | recvToken hphase _ =>
    simp only [Dispatcher.weight, hphase]
    omega
  | tokenClosed hphase _ _ =>
    simp only [Dispatcher.weight, hphase]
    omega
  | send hphase _ _ =>
    simp only [afterSend_weight, Pool.weight_put]
    simp only [Dispatcher.weight, hphase]
    omega
  | lost hphase _ =>
    simp only [Dispatcher.weight, hphase]
    omega

/-- A step of stage A makes the state lighter. -/
theorem StageAStep.weight_lt (hstep : StageAStep c s s') :
    s'.workers.weight 9 + s'.stageA.weight + s'.resolvers.weight 4 <
      s.workers.weight 9 + s.stageA.weight + s.resolvers.weight 4 := by
  cases hstep with
  | accept hphase hnext =>
    have := Reorder.length_remove_lt hnext
    simp only [StageA.weight, hphase]
    omega
  | @recvResult res rest hphase _ _ hresult =>
    have hpool := Pool.weight_leave 9 hresult
    have hlength : (Reorder.insert DecodeResult.id res s.stageA.reorder).length ≤
        s.stageA.reorder.length + 1 := Reorder.length_insert_le
    simp only [StageA.weight, hphase]
    omega
  | recvErr hphase _ _ hresult =>
    have hpool := Pool.weight_leave 9 hresult
    simp only [StageA.weight, hphase]
    omega
  | workersDone hphase _ hopen _ _ =>
    simp only [StageA.weight, hphase, hopen, Bool.false_eq_true, if_false, if_true]
    omega
  | finish hphase _ _ =>
    simp only [StageA.weight, hphase]
    omega
  | @sendJob job hphase _ _ =>
    simp only [StageA.weight, hphase, Pool.weight_put]
    cases job.finalBlock <;> simp only [Bool.false_eq_true, if_true, if_false] <;> omega
  | jobLost hphase _ =>
    simp only [StageA.weight, hphase]
    omega
  | sendErr hphase _ _ =>
    simp only [StageA.weight, hphase, Pool.weight_emit]
    omega
  | errLost hphase _ =>
    simp only [StageA.weight, hphase]
    omega

/-- Putting a token back makes the output stage lighter. -/
theorem Output.afterToken_weight_lt (out : Output) {sinkOk final : Bool}
    (hphase : out.phase = .sendToken sinkOk final) :
    (out.afterToken sinkOk final).weight < out.weight := by
  cases sinkOk with
  | false =>
    simp only [Output.afterToken, Output.weight, hphase, Bool.false_eq_true, if_false]
    omega
  | true =>
    cases final <;>
      simp only [Output.afterToken, Output.weight, hphase, Bool.false_eq_true, if_true,
        if_false] <;> omega

/-- A step of the output stage makes the state lighter. -/
theorem OutputStep.weight_lt (hstep : OutputStep c s s') :
    s'.resolvers.weight 4 + s'.output.weight < s.resolvers.weight 4 + s.output.weight := by
  cases hstep with
  | take hphase hnext _ =>
    have := Reorder.length_remove_lt hnext
    simp only [Output.weight, hphase]
    omega
  | reject hphase hnext _ =>
    have := Reorder.length_remove_lt hnext
    simp only [Output.weight, hphase]
    omega
  | finish hphase _ _ =>
    simp only [Output.weight, hphase]
    omega
  | @recvDone d rest hphase _ _ hdone =>
    have hpool := Pool.weight_leave 4 hdone
    have hlength : (Reorder.insert DecodeResult.id d s.output.reorder).length ≤
        s.output.reorder.length + 1 := Reorder.length_insert_le
    simp only [Output.weight, hphase]
    omega
  | recvErr hphase _ _ hdone =>
    have hpool := Pool.weight_leave 4 hdone
    simp only [Output.weight, hphase]
    omega
  | resolversDone hphase _ hopen _ _ _ =>
    simp only [Output.weight, hphase, hopen, Bool.false_eq_true, if_false, if_true]
    omega
  | deliver hphase _ =>
    simp only [Output.weight, hphase]
    omega
  | sinkClosed hphase _ =>
    simp only [Output.weight, hphase]
    omega
  | @sendToken sinkOk final hphase _ _ =>
    have hlt := s.output.afterToken_weight_lt hphase
    simp only
    omega
  | @tokenLost sinkOk final hphase _ =>
    have hlt := s.output.afterToken_weight_lt hphase
    simp only
    omega
  | teardown hphase =>
    simp only [Output.weight, hphase]
    omega
  | dropTokenTx hphase =>
    simp only [Output.weight, hphase]
    omega
  | dropDoneRx hphase =>
    simp only [Output.weight, hphase]
    omega
  | join hphase _ _ _ _ =>
    simp only [Output.weight, hphase]
    omega

/-- Every step makes the state lighter. -/
theorem Step.weight_lt (hfind : Answers c.find) (h : s.dispatcher.OnCourse c)
    (hstep : Step c s s') : s'.weight < s.weight := by
  simp only [State.weight]
  cases hstep with
  | dispatch hstep =>
    have hlt := hstep.weight_lt hfind h
    have hsame : s'.stageA = s.stageA ∧ s'.resolvers = s.resolvers ∧ s'.output = s.output := by
      cases hstep <;> exact ⟨rfl, rfl, rfl⟩
    rw [hsame.1, hsame.2.1, hsame.2.2]
    omega
  | work hworkers =>
    have := hworkers.weight_lt 9
    simp only
    omega
  | stageA hstep =>
    have hlt := hstep.weight_lt
    have hsame : s'.dispatcher = s.dispatcher ∧ s'.output = s.output := by
      cases hstep <;> exact ⟨rfl, rfl⟩
    rw [hsame.1, hsame.2]
    omega
  | resolve hresolvers =>
    have := hresolvers.weight_lt 4
    simp only
    omega
  | output hstep =>
    have hlt := hstep.weight_lt
    have hsame : s'.dispatcher = s.dispatcher ∧ s'.workers = s.workers ∧ s'.stageA = s.stageA := by
      cases hstep <;> exact ⟨rfl, rfl, rfl⟩
    rw [hsame.1, hsame.2.1, hsame.2.2]
    omega

/-- Every run of the threads returns, unless a target overflows. -/
theorem returns_of_reaches (hn : 0 < c.numThreads) (hfind : Answers c.find)
    (hreads : ∀ r ∈ c.reads, r ≠ []) (hover : c.dispatched ≠ .error .overflow)
    (h : Reaches (Move c) (init c) s) : Inevitable (Step c) (fun s => ∃ r, s.Returned r) s := by
  refine inevitable_of_measure (Reaches (Move c) (init c)) State.weight
    (fun _ _ hreach hstep => hreach.tail (Or.inl hstep))
    (fun _ _ hreach hstep => hstep.weight_lt hfind (onCourse_of_reaches hfind hreads hover hreach))
    (fun s hreach => ?_) h
  by_cases hreturned : ∃ r, s.Returned r
  · exact Or.inl hreturned
  · exact Or.inr (steps_of_reaches hn hreach (not_exists.mp hreturned))

/-- In every state that is reached some thread can step until the call has returned, whatever the
stream holds and whatever the consumer does, as long as no thread panics: each worker hands on a
result for its item. Unless a target overflows, every run of the threads from there on returns. -/
theorem steps_and_returns (hn : 0 < c.numThreads) (h : Reaches (Move c) (init c) s) :
    ((∀ r, ¬s.Returned r) → ∃ s', Step c s s') ∧
      (Answers c.find → (∀ r ∈ c.reads, r ≠ []) → c.dispatched ≠ .error .overflow →
        Inevitable (Step c) (fun s => ∃ r, s.Returned r) s) :=
  ⟨steps_of_reaches hn h, fun hfind hreads hover => returns_of_reaches hn hfind hreads hover h⟩

/-- The stream has no empty read. -/
theorem oneMember_reads : ∀ r ∈ oneMember.reads, r ≠ [] := by decide

/-- Its target does not overflow. -/
theorem oneMember_dispatched : oneMember.dispatched ≠ .error .overflow :=
  dispatch_ne_overflow answers_findNextDynamicBlock oneMember_reads
    (show Gzip.parseHeader Gzip.storedMember = .ok 10 by decide +kernel) (by decide)

/-- From the state in which the item has a token, the call returns. -/
theorem steps_and_returns_oneMember : (∃ s', Step oneMember oneSending s') ∧
    Inevitable (Step oneMember) (fun s => ∃ r, s.Returned r) oneSending := by
  obtain ⟨hsteps, hreturns⟩ := steps_and_returns Nat.one_pos reaches_oneSending
  exact ⟨hsteps fun _ hreturned => (nomatch hreturned),
    hreturns answers_findNextDynamicBlock oneMember_reads oneMember_dispatched⟩

end Weight

end Streaming

end Pipeline

end RustyRapidgzip
