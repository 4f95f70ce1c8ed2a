import RustyRapidgzip.Pipeline.Tokens

/-!
# The streaming decoder returns

Whatever the stream holds, and whatever the consumer does, some thread can take a step as long as
the call has not returned. The dispatcher waits for a token only while all of them are with
chunks, and then the chunk that the output stage waits for is on its way. Once the output
stage has left its loop every thread finds its channels closed.
-/

namespace RustyRapidgzip

open Crc Threads Transition

namespace Pipeline

namespace Streaming

/-- The items that were put into the work channel: each one has taken a token before. -/
def Dispatcher.put (d : Dispatcher) : ℕ := d.taken - d.held

/-- Stage A goes on in order. -/
def StageAPhase.Forwarding : StageAPhase → Prop
  | .drain | .sendJob _ => True
  | _ => False

/-- The chunk that stage A takes from its map next. -/
def StageA.position (a : StageA) : ℕ :=
  match a.phase with
  | .sendJob _ => a.nextId + 1
  | _ => a.nextId

/-- The chunk that the output stage takes from its map next. -/
def Output.position (out : Output) : ℕ :=
  match out.phase with
  | .deliver _ _ | .sendToken _ _ => out.nextId + 1
  | _ => out.nextId

namespace State

variable {c : Config}

/-- The chunk of an item is on its way to stage A, or an error in its place. -/
def Upstream (s : State c) (i : ℕ) : Prop :=
  s.workers.Carries (fun item => item.id = i) (fun r => ∀ d, r = .ok d → d.id = i) ∨
    ∃ d ∈ s.stageA.reorder, d.id = i

/-- A chunk is on its way to the output stage, or an error in its place. -/
def Downstream (s : State c) (i : ℕ) : Prop :=
  s.resolvers.Carries (fun job => job.id = i) (fun r => ∀ d, r = .ok d → d.id = i) ∨
    ∃ d ∈ s.output.reorder, d.id = i

/-- The call has returned. -/
def Returned (s : State c) (r : Except Error (ℕ × ℕ × ℕ)) : Prop := s.output.phase = .returned r

end State

/-! ## Nothing is lost on the way -/

/-- What holds while the output stage is in its loop. -/
structure Live {c : Config} (s : State c) : Prop where
  abort_eq : s.abort = false
  hasSender_eq : s.token.hasSender = true
  fed : s.stageA.phase ≠ .stopped → s.workers.Drained (¬s.dispatcher.Returned)
  drained : s.resolvers.Drained (s.stageA.phase ≠ .stopped)
  job_id : ∀ job, s.stageA.phase = .sendJob job → job.id = s.stageA.nextId
  upstream : s.stageA.phase.Forwarding → ∀ i, s.stageA.position ≤ i → i < s.dispatcher.put →
    s.Upstream i
  downstream : ∀ i, s.output.position ≤ i → i < s.stageA.nextId → s.Downstream i

section Live

variable {c : Config} {s s' : State c}

/-- An output stage in its loop listens. -/
theorem OutputPhase.Looping.listening {phase : OutputPhase} (h : phase.Looping) :
    phase.Listening := by
  cases phase with
  | drain => exact trivial
  | deliver _ _ => exact trivial
  | sendToken _ _ => exact trivial
  | leave => exact trivial
  | dropTokenTx => exact trivial
  | dropDoneRx => exact trivial
  | joining => exact h
  | returned _ => exact h

/-- A dispatcher that has put no item changes nothing behind it. -/
theorem Live.of_dispatcher {d : Dispatcher} (h : Live s) (hrunning : ¬s.dispatcher.Returned)
    (hput : d.put = s.dispatcher.put) : Live { s with dispatcher := d } :=
  { h with
    fed := fun hopen => (h.fed hopen).of_running hrunning
    upstream := fun hforward i hi hlt => h.upstream hforward i hi (hput ▸ hlt) }

/-- The dispatcher moves on between two items, or returns. -/
theorem Live.of_phase {phase : DispatchPhase} (h : Live s) (hrunning : ¬s.dispatcher.Returned)
    (hheld : s.dispatcher.held = 0) (hheld' : Dispatcher.held ⟨phase, s.dispatcher.taken⟩ = 0) :
    Live { s with dispatcher := { s.dispatcher with phase := phase } } := by
  apply h.of_dispatcher hrunning
  rw [Dispatcher.put, Dispatcher.put, hheld, hheld']

/-- The dispatcher keeps the account of what has stopped. -/
theorem DispatchStep.live (hn : 0 < c.numThreads) (hnumbered : Numbered s) (h : Live s)
    (hstep : DispatchStep c s s') : Live s' := by
  have hrunning := hstep.running
  have hstands := hnumbered.dispatcher
  unfold Dispatcher.Stands at hstands
  cases hstep with
  | start hphase _ => exact h.of_phase hrunning (by rw [Dispatcher.held, hphase]) rfl
  | badHeader hphase _ => exact h.of_phase hrunning (by rw [Dispatcher.held, hphase]) rfl
  | readFails hphase =>
    refine h.of_phase hrunning ?_ rfl
    rcases hphase with hphase | ⟨st, hphase⟩
    · rw [Dispatcher.held, hphase]
    · rw [Dispatcher.held, hphase]
  | abort _ habort =>
    rw [h.abort_eq] at habort
    cases habort
  | more hphase _ _ _ => exact h.of_phase hrunning (by rw [Dispatcher.held, hphase]) rfl
  | cut hphase _ _ _ => exact h.of_phase hrunning (by rw [Dispatcher.held, hphase]) rfl
  | fail hphase _ _ => exact h.of_phase hrunning (by rw [Dispatcher.held, hphase]) rfl
  | wrapMore hphase _ _ _ => exact h.of_phase hrunning (by rw [Dispatcher.held, hphase]) rfl
  | wrapCut hphase _ _ _ _ => exact h.of_phase hrunning (by rw [Dispatcher.held, hphase]) rfl
  | @recvToken item next hphase _ =>
    have hput : Dispatcher.put ⟨.send item next, s.dispatcher.taken + 1⟩ = s.dispatcher.put := by
      rw [Dispatcher.put, Dispatcher.put, Dispatcher.held, Dispatcher.held, hphase]
      rfl
    exact { h.of_dispatcher hrunning hput with }
  | tokenClosed _ _ hclosed =>
    rw [h.hasSender_eq] at hclosed
    cases hclosed
  | @send item next hphase _ _ =>
    rw [hphase] at hstands
    have hafter : Dispatcher.put { s.dispatcher with phase := afterSend next } =
        s.dispatcher.taken := by
      cases next <;> exact Nat.sub_zero _
    have hbefore : s.dispatcher.put = s.dispatcher.taken - 1 := by
      rw [Dispatcher.put, Dispatcher.held, hphase]
    refine { h with
      fed := fun hopen i hi => absurd hi ((h.fed hopen).running hrunning i)
      upstream := fun hforward i hi hlt => ?_ }
    rw [hafter] at hlt
    by_cases hlast : item.id = i
    · exact Or.inl (Pool.carries_put hlast)
    · exact (h.upstream hforward i hi (by omega)).imp Pool.Carries.put id
  | lost _ hstopped =>
    have hstageA : s.stageA.phase = .stopped := by
      by_contra hopen
      exact (h.fed hopen).running hrunning ⟨0, hn⟩ (hstopped _)
    exact { h with
      fed := fun hopen => absurd hstageA hopen
      upstream := fun hforward => by
        rw [hstageA] at hforward
        exact hforward.elim }

/-- Stage A stops, or holds an error, and hands nothing on. -/
theorem Live.of_stageA {phase : StageAPhase} (h : Live s) (hopen : s.stageA.phase ≠ .stopped)
    (hphase : ¬phase.Forwarding) : Live { s with stageA := { s.stageA with phase := phase } } :=
  { h with
    fed := fun _ => h.fed hopen
    drained := h.drained.of_running hopen
    job_id := fun job hjob => by
      have hjob' : phase = .sendJob job := hjob
      rw [hjob'] at hphase
      exact absurd trivial hphase
    upstream := fun hforward => absurd hforward hphase }

/-- Stage A keeps the account of what has stopped. -/
theorem StageAStep.live (hm : 0 < c.resolveThreads) (h : Live s) (hloop : s.output.phase.Looping)
    (hstep : StageAStep c s s') : Live s' := by
  cases hstep with
  | @accept res rest hphase hnext =>
    have hopen : s.stageA.phase ≠ .stopped := by simp [hphase]
    have hposition : s.stageA.position = s.stageA.nextId := by rw [StageA.position, hphase]
    refine { h with
      fed := fun _ => h.fed hopen
      drained := h.drained.of_running hopen
      job_id := ?_
      upstream := fun _ i hi hlt => ?_ }
    · rintro _ ⟨⟩
      exact (Reorder.remove_eq_some hnext).2
    · have hi' : s.stageA.nextId + 1 ≤ i := hi
      refine (h.upstream (by rw [hphase]; trivial) i (by omega) hlt).imp id fun hmem => ?_
      exact Reorder.exists_mem_remove hnext (by omega) hmem
  | @recvResult res rest hphase _ _ hresult =>
    have hopen : s.stageA.phase ≠ .stopped := by simp [hphase]
    refine { h with
      fed := fun _ => h.fed hopen
      upstream := fun hforward i hi hlt => ?_ }
    rcases h.upstream hforward i hi hlt with hcarries | hmem
    · rcases hcarries.leave hresult with hid | hcarries
      · exact Or.inr ⟨res, Reorder.mem_insert_self, hid res rfl⟩
      · exact Or.inl hcarries
    · exact Or.inr (Reorder.exists_mem_insert hmem)
  | @recvErr e _ hphase _ _ _ =>
    have hopen : s.stageA.phase ≠ .stopped := by simp [hphase]
    have hlive : Live { s with stageA := { s.stageA with phase := .sendErr e } } :=
      h.of_stageA hopen False.elim
    exact { hlive with fed := fun _ => h.fed hopen, upstream := False.elim }
  | workersDone hphase _ _ _ _ => exact { h with }
  | finish hphase _ _ => exact h.of_stageA (by simp [hphase]) False.elim
  | @sendJob job hphase _ _ =>
    have hopen : s.stageA.phase ≠ .stopped := by simp [hphase]
    have hposition : s.stageA.position = s.stageA.nextId + 1 := by rw [StageA.position, hphase]
    refine { h with
      fed := fun _ => h.fed hopen
      drained := fun i hi => absurd hi (h.drained.running hopen i)
      job_id := fun job' hjob' => ?_
      upstream := fun _ i hi => h.upstream (by rw [hphase]; trivial) i ?_
      downstream := fun i hi hlt => ?_ }
    · simp only at hjob'
      split_ifs at hjob'
    · rw [hposition]
      revert hi
      cases hfinal : job.finalBlock <;> exact id
    · by_cases hlast : job.id = i
      · exact Or.inl (Pool.carries_put hlast)
      · have hid := h.job_id job hphase
        have hlt' : i < s.stageA.nextId + 1 := hlt
        exact (h.downstream i hi (by omega)).imp Pool.Carries.put id
  | jobLost hphase hstopped =>
    exact absurd (hstopped ⟨0, hm⟩) (h.drained.running (by simp [hphase]) _)
  | sendErr hphase _ _ =>
    have hopen : s.stageA.phase ≠ .stopped := by simp [hphase]
    exact { h with
      fed := fun hopen' => absurd rfl hopen'
      drained := fun i hi => absurd hi (h.drained.running hopen i)
      job_id := nofun
      upstream := False.elim
      downstream := fun i hi hlt => (h.downstream i hi hlt).imp Pool.Carries.emit id }
  | errLost _ hclosed => exact absurd hloop.listening hclosed

/-- The output stage goes on to the next chunk. -/
theorem Live.afterToken {sinkOk final : Bool} (h : Live s)
    (hphase : s.output.phase = .sendToken sinkOk final)
    (hloop : (s.output.afterToken sinkOk final).phase.Looping) :
    Live { s with output := s.output.afterToken sinkOk final } := by
  refine { h with downstream := fun i hi hlt => ?_ }
  have hmem : s.Downstream i := by
    refine h.downstream i ?_ hlt
    rw [Output.position, hphase]
    cases sinkOk with
    | false => exact hloop.elim
    | true => cases final with
      | false => exact hi
      | true => exact hloop.elim
  exact hmem.imp id fun hmem => by simpa using hmem

/-- The output stage keeps the account of what has stopped. -/
theorem OutputStep.live (h : s.output.phase.Looping → Live s) (hstep : OutputStep c s s')
    (hloop : s'.output.phase.Looping) : Live s' := by
  cases hstep with
  | @take d rest m hphase hnext _ =>
    have hlive := h (by rw [hphase]; trivial)
    refine { hlive with downstream := fun i hi hlt => ?_ }
    have hi' : s.output.nextId + 1 ≤ i := hi
    have hposition : s.output.position = s.output.nextId := by rw [Output.position, hphase]
    refine (hlive.downstream i (by omega) hlt).imp id fun hmem => ?_
    exact Reorder.exists_mem_remove hnext (by omega) hmem
  | @recvDone d rest hphase _ _ hdone =>
    have hlive := h (by rw [hphase]; trivial)
    refine { hlive with downstream := fun i hi hlt => ?_ }
    rcases hlive.downstream i hi hlt with hcarries | hmem
    · rcases hcarries.leave hdone with hid | hcarries
      · exact Or.inr ⟨d, Reorder.mem_insert_self, hid d rfl⟩
      · exact Or.inl hcarries
    · exact Or.inr (Reorder.exists_mem_insert hmem)
  | resolversDone hphase _ _ _ _ _ => exact { h (by rw [hphase]; trivial) with }
  | deliver hphase _ =>
    have hlive := h (by rw [hphase]; trivial)
    refine { hlive with downstream := fun i hi => hlive.downstream i ?_ }
    rw [Output.position, hphase]
    exact hi
  | sinkClosed hphase _ =>
    have hlive := h (by rw [hphase]; trivial)
    refine { hlive with downstream := fun i hi => hlive.downstream i ?_ }
    rw [Output.position, hphase]
    exact hi
  | @sendToken sinkOk final hphase _ _ =>
    have hlive := h (by rw [hphase]; trivial)
    exact { hlive.afterToken hphase hloop with }
  | @tokenLost sinkOk final hphase _ =>
    have hlive := h (by rw [hphase]; trivial)
    exact hlive.afterToken hphase hloop
  | reject _ _ _ => exact hloop.elim
  | finish _ _ _ => exact hloop.elim
  | recvErr _ _ _ _ => exact hloop.elim
  | teardown _ => exact hloop.elim
  | dropTokenTx _ => exact hloop.elim
  | dropDoneRx _ => exact hloop.elim
  | join _ _ _ _ _ => exact hloop.elim

/-- Every step keeps the account of what has stopped, while the output stage is in its loop. -/
theorem Step.live (hn : 0 < c.numThreads) (hm : 0 < c.resolveThreads) (hnumbered : Numbered s)
    (h : s.output.phase.Looping → Live s) (hstep : Step c s s')
    (hloop : s'.output.phase.Looping) : Live s' := by
  cases hstep with
  | dispatch hstep =>
    have hsame : s'.output = s.output := by cases hstep <;> rfl
    exact hstep.live hn hnumbered (h (hsame ▸ hloop))
  | work hworkers =>
    have hlive := h hloop
    refine { hlive with
      fed := fun hopen => hworkers.drained hopen (hlive.fed hopen)
      upstream := fun hforward i hi hlt => ?_ }
    have hopen : s.stageA.phase ≠ .stopped := by
      intro hstopped
      rw [hstopped] at hforward
      exact hforward
    refine (hlive.upstream hforward i hi hlt).imp (fun h => hworkers.carries hopen ?_ h) id
    rintro item _ hid hwork d rfl
    rw [hwork.id_eq, hid]
  | stageA hstep =>
    have hsame : s'.output = s.output := by cases hstep <;> rfl
    have hloop' : s.output.phase.Looping := hsame ▸ hloop
    exact hstep.live hm (h hloop') hloop'
  | resolve hresolvers =>
    have hlive := h hloop
    have hlistening := hloop.listening
    refine { hlive with
      drained := hresolvers.drained hlistening hlive.drained
      downstream := fun i hi hlt =>
        (hlive.downstream i hi hlt).imp (fun h => hresolvers.carries hlistening ?_ h) id }
    rintro job _ hid rfl d hd
    rw [resolveJob_id hd, hid]
  | output hstep => exact hstep.live h hloop

/-- At the start nothing has stopped. -/
theorem live_init (c : Config) : Live (init c) where
  abort_eq := rfl
  hasSender_eq := rfl
  fed _ := Pool.drained_start
  drained := Pool.drained_start
  job_id := nofun
  upstream _ i _ hlt := absurd hlt (Nat.not_lt_zero i)
  downstream i _ hlt := absurd hlt (Nat.not_lt_zero i)

/-- There is a resolver. -/
theorem Config.resolveThreads_pos (c : Config) : 0 < c.resolveThreads := by
  unfold Config.resolveThreads
  omega

/-- There is a token. -/
theorem Config.inflightCap_pos (c : Config) : 0 < c.inflightCap := by
  unfold Config.inflightCap
  omega

/-- While the output stage is in its loop, nothing has stopped without a reason. -/
theorem live_of_reaches (hn : 0 < c.numThreads) (h : Reaches (Move c) (init c) s)
    (hloop : s.output.phase.Looping) : Live s := by
  refine (h.invariant (fun s => Numbered s ∧ (s.output.phase.Looping → Live s)) ?_
    ⟨numbered_init c, fun _ => live_init c⟩).2 hloop
  rintro s s' ⟨hnumbered, hlive⟩ (hstep | hhangup)
  · exact ⟨hstep.numbered hnumbered, hstep.live hn c.resolveThreads_pos hnumbered hlive⟩
  · cases hhangup
    exact ⟨{ hnumbered with }, fun hloop => { hlive hloop with }⟩

end Live

/-! ## Some thread can step -/

/-- The dispatcher is told to stop when the output stage has left its loop. -/
structure TornDown {c : Config} (s : State c) : Prop where
  abort_eq : ¬s.output.phase.BeforeTeardown → s.abort = true
  hasSender_eq : s.output.phase = .dropDoneRx ∨ ¬s.output.phase.Listening →
    s.token.hasSender = false

section Progress

variable {c : Config} {s s' : State c}

/-- Every step keeps the order in which the ends of the channels are dropped. -/
theorem Step.tornDown (h : TornDown s) (hstep : Step c s s') : TornDown s' := by
  cases hstep with
  | dispatch hstep => cases hstep <;> exact ⟨h.abort_eq, h.hasSender_eq⟩
  | work _ => exact ⟨h.abort_eq, h.hasSender_eq⟩
  | stageA hstep => cases hstep <;> exact ⟨h.abort_eq, h.hasSender_eq⟩
  | resolve _ => exact ⟨h.abort_eq, h.hasSender_eq⟩
  | output hstep =>
    have hafter (sinkOk final : Bool) :
        (s.output.afterToken sinkOk final).phase.BeforeTeardown := by
      cases sinkOk <;> cases final <;> exact trivial
    have hbefore {phase : OutputPhase} (h : phase.BeforeTeardown) :
        ¬(phase = .dropDoneRx ∨ ¬phase.Listening) := by
      cases phase <;> simp_all [OutputPhase.BeforeTeardown, OutputPhase.Listening]
    have hstart {s' : State c} (h : s'.output.phase.BeforeTeardown) : TornDown s' :=
      ⟨fun hnot => absurd h hnot, fun hnot => absurd hnot (hbefore h)⟩
    cases hstep with
    | take _ _ _ => exact hstart trivial
    | reject _ _ _ => exact hstart trivial
    | finish _ _ _ => exact hstart trivial
    | recvDone hphase _ _ _ => exact hstart (by simp only [hphase]; trivial)
    | recvErr _ _ _ _ => exact hstart trivial
    | resolversDone hphase _ _ _ _ _ => exact hstart (by simp only [hphase]; trivial)
    | deliver _ _ => exact hstart trivial
    | sinkClosed _ _ => exact hstart trivial
    | sendToken _ _ _ => exact hstart (hafter _ _)
    | tokenLost _ _ => exact hstart (hafter _ _)
    | teardown _ => exact ⟨fun _ => rfl, by simp [OutputPhase.Listening]⟩
    | dropTokenTx hphase =>
      exact ⟨fun _ => h.abort_eq (by rw [hphase]; exact id), fun _ => rfl⟩
    | dropDoneRx hphase =>
      exact ⟨fun _ => h.abort_eq (by rw [hphase]; exact id),
        fun _ => h.hasSender_eq (Or.inl hphase)⟩
    | join hphase _ _ _ _ =>
      exact ⟨fun _ => h.abort_eq (by rw [hphase]; exact id),
        fun _ => h.hasSender_eq (Or.inr (by rw [hphase]; exact id))⟩

/-- In every state the ends of the channels are dropped in order. -/
theorem tornDown_of_reaches (h : Reaches (Move c) (init c) s) : TornDown s := by
  refine h.invariant TornDown (fun s s' htorn hmove => ?_)
    ⟨fun h => absurd trivial h, by simp [init, OutputPhase.Listening]⟩
  rcases hmove with hstep | hhangup
  · exact hstep.tornDown htorn
  · cases hhangup
    exact ⟨htorn.abort_eq, htorn.hasSender_eq⟩

/-- The dispatcher waits for a token. -/
def State.AwaitsToken (s : State c) : Prop :=
  (∃ item next, s.dispatcher.phase = .recvToken item next) ∧ s.token.tokens = 0 ∧
    s.token.hasSender = true

/-- The dispatcher can step when the work channel has room or no receiver, unless it waits for a
token. -/
theorem dispatcher_steps (hrunning : ¬s.dispatcher.Returned)
    (hroom : s.workers.Stopped ∨ s.workers.input.length < c.numThreads) :
    (∃ s', Step c s s') ∨ s.AwaitsToken := by
  cases hphase : s.dispatcher.phase with
  | start =>
    cases hstrip : (Source.new c.reads).fillMore.2.stripFirstHeader with
    | ok src => exact Or.inl ⟨_, .dispatch (.start hphase hstrip)⟩
    | error e => exact Or.inl ⟨_, .dispatch (.badHeader hphase hstrip)⟩
  | look st =>
    cases habort : s.abort with
    | true => exact Or.inl ⟨_, .dispatch (.abort hphase habort)⟩
    | false =>
      cases hround : c.round st with
      | error e => exact Or.inl ⟨_, .dispatch (.fail hphase habort hround)⟩
      | ok next =>
        rcases round_numbers hround with ⟨st', rfl, hsent, -⟩ | ⟨sent, hsent, -⟩
        · exact Or.inl ⟨_, .dispatch (.more hphase habort hround hsent)⟩
        · exact Or.inl ⟨_, .dispatch (.cut hphase habort hround hsent)⟩
  | recvToken item next =>
    cases htokens : s.token.tokens with
    | succ n => exact Or.inl ⟨_, .dispatch (.recvToken hphase (htokens ▸ Nat.succ_pos n))⟩
    | zero =>
      cases hsender : s.token.hasSender with
      | true => exact Or.inr ⟨⟨item, next, hphase⟩, htokens, hsender⟩
      | false => exact Or.inl ⟨_, .dispatch (.tokenClosed hphase htokens hsender)⟩
  | send item next =>
    by_cases hstopped : s.workers.Stopped
    · exact Or.inl ⟨_, .dispatch (.lost hphase hstopped)⟩
    · exact Or.inl ⟨_, .dispatch (.send hphase hstopped (hroom.resolve_left hstopped))⟩
  | returned r => exact absurd ⟨r, hphase⟩ hrunning

/-- A resolver makes something of every job. -/
theorem resolve_total (job : ResolveJob) : ∃ r, Resolve job r := ⟨_, rfl⟩

/-- No item is in the work channel or with a worker. -/
def State.NoWork (s : State c) : Prop :=
  s.workers.input = [] ∧ ∀ i b, s.workers.workers i ≠ .send b

/-- The dispatcher or a worker can step when the results have room, or both have come to their
end, or the dispatcher waits for a token. -/
theorem front_steps (hn : 0 < c.numThreads)
    (hroom : s.stageA.phase ≠ .stopped → s.workers.output = []) : (∃ s', Step c s s') ∨
    (s.workers.Stopped ∧ s.dispatcher.Returned) ∨
      (s.AwaitsToken ∧ (s.workers.Stopped ∨ s.NoWork)) := by
  have hpool : (∃ workers, s.workers.Step (Work c.build) (c.numThreads * 2) (¬s.dispatcher.Returned)
      (s.stageA.phase ≠ .stopped) workers) ∨ s.workers.Quiet (c.numThreads * 2)
        (¬s.dispatcher.Returned) (s.stageA.phase ≠ .stopped) :=
    Pool.step_or_quiet (Work.total c.build) ..
  rcases hpool with ⟨_, hstep⟩ | hquiet
  · exact Or.inl ⟨_, .work hstep⟩
  have hidle := hquiet.idle fun hopen => by
    rw [hroom hopen]
    exact Nat.mul_pos hn Nat.two_pos
  by_cases hstopped : s.workers.Stopped
  · by_cases hreturned : s.dispatcher.Returned
    · exact Or.inr (Or.inl ⟨hstopped, hreturned⟩)
    · exact (dispatcher_steps hreturned (Or.inl hstopped)).imp id fun hwaits =>
        Or.inr ⟨hwaits, Or.inl hstopped⟩
  · obtain ⟨i, hi⟩ := not_forall.mp hstopped
    obtain ⟨-, hinput, hreturned⟩ := (hidle i).resolve_left hi
    have hnone : s.NoWork := by
      refine ⟨hinput, fun j b hj => ?_⟩
      rcases hidle j with hj' | ⟨hj', -⟩
      · rw [hj'] at hj
        cases hj
      · rw [hj'] at hj
        cases hj
    exact (dispatcher_steps hreturned (Or.inr (by rw [hinput]; exact hn))).imp id fun hwaits =>
      Or.inr ⟨hwaits, Or.inr hnone⟩

/-- The resolve pool can step, or waits. -/
theorem resolvers_step (s : State c) : (∃ s', Step c s s') ∨
    s.resolvers.Quiet (c.numThreads * 2) (s.stageA.phase ≠ .stopped) s.output.phase.Listening := by
  have h : (∃ resolvers, s.resolvers.Step Resolve (c.numThreads * 2) (s.stageA.phase ≠ .stopped)
      s.output.phase.Listening resolvers) ∨ s.resolvers.Quiet (c.numThreads * 2)
        (s.stageA.phase ≠ .stopped) s.output.phase.Listening :=
    Pool.step_or_quiet resolve_total ..
  exact h.imp (fun ⟨_, hstep⟩ => ⟨_, .resolve hstep⟩) id

/-- Stage A can step when its workers can step or have stopped, its jobs have room, and its
errors have room. -/
theorem stageA_steps (hn : 0 < c.numThreads) (hphase : s.stageA.phase ≠ .stopped)
    (hfront : s.stageA.phase = .drain →
      Reorder.remove DecodeResult.id s.stageA.nextId s.stageA.reorder = none →
      s.workers.output = [] → (∃ s', Step c s s') ∨ s.workers.Stopped)
    (hjobs : s.resolvers.Stopped ∨ s.resolvers.input = [])
    (herrors : s.output.phase.Listening → s.resolvers.output = []) : ∃ s', Step c s s' := by
  have hcapacity : 0 < c.numThreads * 2 := Nat.mul_pos hn Nat.two_pos
  cases hstageA : s.stageA.phase with
  | stopped => exact absurd hstageA hphase
  | sendErr e =>
    by_cases hlistening : s.output.phase.Listening
    · refine ⟨_, .stageA (.sendErr hstageA hlistening ?_)⟩
      rwa [herrors hlistening]
    · exact ⟨_, .stageA (.errLost hstageA hlistening)⟩
  | sendJob job =>
    by_cases hstopped : s.resolvers.Stopped
    · exact ⟨_, .stageA (.jobLost hstageA hstopped)⟩
    · refine ⟨_, .stageA (.sendJob hstageA hstopped ?_)⟩
      rwa [hjobs.resolve_left hstopped]
  | drain =>
    cases hnext : Reorder.remove DecodeResult.id s.stageA.nextId s.stageA.reorder with
    | some p => exact ⟨_, .stageA (.accept hstageA hnext)⟩
    | none =>
    cases hclosed : s.stageA.closed with
    | true => exact ⟨_, .stageA (.finish hstageA hnext hclosed)⟩
    | false =>
    cases hresult : s.workers.output with
    | cons r rest =>
      cases r with
      | ok res => exact ⟨_, .stageA (.recvResult hstageA hnext hclosed hresult)⟩
      | error e => exact ⟨_, .stageA (.recvErr hstageA hnext hclosed hresult)⟩
    | nil =>
      rcases hfront hstageA hnext hresult with hstep | hstopped
      · exact hstep
      · exact ⟨_, .stageA (.workersDone hstageA hnext hclosed hresult hstopped)⟩

/-- While the output stage waits, and nothing is on its way to it, the dispatcher has a token: one
that is missing is with the chunk that the output stage waits for. -/
theorem Live.not_awaitsToken (h : Live s) (hcounted : Counted s) (hphase : s.output.phase = .drain)
    (hnext : Reorder.remove DecodeResult.id s.output.nextId s.output.reorder = none)
    (hresolvers : ∀ P Q, ¬s.resolvers.Carries P Q) (hstageA : s.stageA.phase = .drain)
    (hnextA : Reorder.remove DecodeResult.id s.stageA.nextId s.stageA.reorder = none)
    (hresult : s.workers.output = []) (hnone : s.NoWork) : ¬s.AwaitsToken := by
  rintro ⟨⟨item, next, hrecv⟩, htokens, -⟩
  have hrunning : ¬s.dispatcher.Returned := by
    rintro ⟨r, hr⟩
    rw [hr] at hrecv
    cases hrecv
  have heq := hcounted.eq hrunning
  have hputBack := hcounted.looping (by rw [hphase]; trivial)
  have hcap := c.inflightCap_pos
  have hput : s.dispatcher.put = s.dispatcher.taken := by
    rw [Dispatcher.put, Dispatcher.held, hrecv]
    rfl
  have hposition : s.output.position = s.output.nextId := by rw [Output.position, hphase]
  have hpositionA : s.stageA.position = s.stageA.nextId := by rw [StageA.position, hstageA]
  have hle : s.stageA.nextId ≤ s.output.nextId := by
    by_contra hlt
    rcases h.downstream s.output.nextId hposition.le (Nat.lt_of_not_le hlt) with
      hcarries | ⟨d, hd, hid⟩
    · exact hresolvers _ _ hcarries
    · exact Reorder.remove_eq_none hnext d hd hid
  rcases h.upstream (by rw [hstageA]; trivial) s.stageA.nextId hpositionA.le (by omega) with
    (⟨item, hitem, -⟩ | ⟨i, r, hr, -⟩ | ⟨r, hr, -⟩) | ⟨d, hd, hid⟩
  · rw [hnone.1] at hitem
    cases hitem
  · exact hnone.2 i r hr
  · rw [hresult] at hr
    cases hr
  · exact Reorder.remove_eq_none hnextA d hd hid

/-- While the output stage waits for a chunk, some thread can step. -/
theorem Live.steps (h : Live s) (hn : 0 < c.numThreads) (hcounted : Counted s)
    (hphase : s.output.phase = .drain)
    (hnext : Reorder.remove DecodeResult.id s.output.nextId s.output.reorder = none)
    (hopen : s.output.closed = false) (hdone : s.resolvers.output = []) : ∃ s', Step c s s' := by
  rcases resolvers_step s with hstep | hquiet
  · exact hstep
  have hidle := hquiet.idle fun _ => by
    rw [hdone]
    exact Nat.mul_pos hn Nat.two_pos
  by_cases hstopped : s.stageA.phase = .stopped
  · exact ⟨_, .output (.resolversDone hphase hnext hopen hdone hstopped fun i =>
      (hidle i).resolve_right fun h => h.2.2 hstopped)⟩
  have hrecv := fun i => (hidle i).resolve_left (h.drained.running hstopped i)
  have hinput := (hrecv ⟨0, c.resolveThreads_pos⟩).2.1
  have hresolvers : ∀ P Q, ¬s.resolvers.Carries P Q := by
    rintro P Q (⟨job, hjob, -⟩ | ⟨i, r, hr, -⟩ | ⟨r, hr, -⟩)
    · rw [hinput] at hjob
      cases hjob
    · rw [(hrecv i).1] at hr
      cases hr
    · rw [hdone] at hr
      cases hr
  refine stageA_steps hn hstopped (fun hstageA hnextA hresult => ?_) (Or.inr hinput) fun _ => hdone
  rcases front_steps hn fun _ => hresult with hstep | ⟨hstopped, -⟩ | ⟨hwaits, hstopped | hnone⟩
  · exact Or.inl hstep
  · exact Or.inr hstopped
  · exact Or.inr hstopped
  · exact absurd hwaits (h.not_awaitsToken hcounted hphase hnext hresolvers hstageA hnextA hresult
      hnone)

/-- While the threads are joined, one of them can step, or all have come to their end. -/
theorem TornDown.steps (h : TornDown s) (hn : 0 < c.numThreads)
    (hphase : s.output.phase = .joining) : ∃ s', Step c s s' := by
  have hlistening : ¬s.output.phase.Listening := by rw [hphase]; exact id
  have hclosed := h.hasSender_eq (Or.inr hlistening)
  have hwaits : ¬s.AwaitsToken := by
    rintro ⟨-, -, hopen⟩
    rw [hclosed] at hopen
    cases hopen
  rcases resolvers_step s with hstep | hquiet
  · exact hstep
  have hidle := hquiet.idle fun h => absurd h hlistening
  by_cases hstageA : s.stageA.phase = .stopped
  · have hresolvers : s.resolvers.Stopped := fun i =>
      (hidle i).resolve_right fun h => h.2.2 hstageA
    rcases front_steps hn fun h => absurd hstageA h with
      hstep | ⟨hstopped, r, hr⟩ | ⟨hwaits', -⟩
    · exact hstep
    · exact ⟨_, .output (.join hphase hstageA hresolvers hstopped hr)⟩
    · exact absurd hwaits' hwaits
  · refine stageA_steps hn hstageA (fun _ _ hresult => ?_) ?_ fun h => absurd h hlistening
    · rcases front_steps hn fun _ => hresult with hstep | ⟨hstopped, -⟩ | ⟨hwaits', -⟩
      · exact Or.inl hstep
      · exact Or.inr hstopped
      · exact absurd hwaits' hwaits
    · by_cases hstopped : s.resolvers.Stopped
      · exact Or.inl hstopped
      · obtain ⟨i, hi⟩ := not_forall.mp hstopped
        exact Or.inr ((hidle i).resolve_left hi).2.1

/-- Every state that is reached before the call returns has a step of some thread, whatever the
stream holds and whatever the consumer does. -/
theorem steps_of_reaches (hn : 0 < c.numThreads) (h : Reaches (Move c) (init c) s)
    (hreturned : ∀ r, ¬s.Returned r) : ∃ s', Step c s s' := by
  have hcounted := counted_of_reaches h
  have hlive := live_of_reaches hn h
  cases hphase : s.output.phase with
  | returned r => exact absurd hphase (hreturned r)
  | deliver bytes final =>
    cases hsink : s.sink.isOpen with
    | true => exact ⟨_, .output (.deliver hphase hsink)⟩
    | false => exact ⟨_, .output (.sinkClosed hphase hsink)⟩
  | sendToken sinkOk final =>
    obtain ⟨s', hstep, -⟩ := hcounted.exists_sendToken hphase
    exact ⟨s', .output hstep⟩
  | leave => exact ⟨_, .output (.teardown hphase)⟩
  | dropTokenTx => exact ⟨_, .output (.dropTokenTx hphase)⟩
  | dropDoneRx => exact ⟨_, .output (.dropDoneRx hphase)⟩
  | joining => exact (tornDown_of_reaches h).steps hn hphase
  | drain =>
    cases hnext : Reorder.remove DecodeResult.id s.output.nextId s.output.reorder with
    | some p =>
      obtain ⟨d, rest⟩ := p
      cases hcheck : checkPieces c.crc d.chunk.bytes 0 d.memberBoundaries s.output.member with
      | ok m => exact ⟨_, .output (.take hphase hnext hcheck)⟩
      | error e => exact ⟨_, .output (.reject hphase hnext hcheck)⟩
    | none =>
    cases hclosed : s.output.closed with
    | true => exact ⟨_, .output (.finish hphase hnext hclosed)⟩
    | false =>
    cases hdone : s.resolvers.output with
    | cons r rest =>
      cases r with
      | ok d => exact ⟨_, .output (.recvDone hphase hnext hclosed hdone)⟩
      | error e => exact ⟨_, .output (.recvErr hphase hnext hclosed hdone)⟩
    | nil =>
      exact (hlive (by rw [hphase]; trivial)).steps hn hcounted hphase hnext hclosed hdone

end Progress

end Streaming

end Pipeline

end RustyRapidgzip
