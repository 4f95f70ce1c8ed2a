import RustyRapidgzip.Pipeline.Flow

/-!
# The parallel decoder returns

As long as the call has not returned, some thread can take a step: the chunk that the output
stage waits for has a slot, so it is on its way, and after the output stage has left its
loop every thread finds its channels closed. Every step lowers a weight, so every run ends.
-/

namespace RustyRapidgzip

open Threads Transition

namespace Pipeline

namespace Mmap

variable {c : Config} {s s' : State c}

/-- The channels have room. -/
theorem Config.capacity_pos : 0 < c.capacity := by
  have := c.two_le_numThreads
  rw [Config.capacity]
  omega

/-- A worker makes something of every item. -/
theorem Config.work_total (item : WorkItem) : ∃ o, c.work item o := by
  obtain ⟨r, hr⟩ := c.decode_total item
  exact ⟨_, r, hr, rfl⟩

/-- A resolver makes something of every job. -/
theorem Config.resolve_total (job : ResolveJob) : ∃ r, c.resolve job r := ⟨_, rfl⟩

/-- The later items have later numbers. -/
theorem Config.le_id_of_mem_drop {item : WorkItem} {n : ℕ} (h : item ∈ c.items.drop n) :
    n ≤ item.id := by
  obtain ⟨i, hi⟩ := List.mem_iff_getElem?.mp h
  rw [List.getElem?_drop] at hi
  rw [c.items_id _ item hi]
  exact Nat.le_add_right n i

/-- The chain can always go on with some result. -/
theorem Config.exists_checks (start : ℕ) (o : WorkOutcome) :
    ∃ r again, c.Checks start o r again := by
  by_cases h : (∃ res, o.result = .ok res) ∧ o.startBit = start
  · exact ⟨_, _, Or.inl ⟨h.1, h.2, rfl, rfl⟩⟩
  · obtain ⟨r, hr⟩ := c.decode_total ⟨o.id, start, o.endBitHint⟩
    exact ⟨r, _, Or.inr ⟨h, hr, rfl⟩⟩

/-- Stage A can step when its workers can step or have stopped, its jobs have room, and its
errors have room. -/
theorem stageA_steps (hphase : s.stageA.phase ≠ .stopped)
    (hfront : s.stageA.phase = .drain →
      Reorder.remove WorkOutcome.id s.stageA.nextId s.stageA.reorder = none →
      s.front.pool.output = [] → (∃ s', Step c s s') ∨ s.front.pool.Stopped)
    (hjobs : s.resolvers.Stopped ∨ s.resolvers.input = [])
    (herrors : s.output.phase.Listening → s.resolvers.output = []) : ∃ s', Step c s s' := by
  cases hstageA : s.stageA.phase with
  | stopped => exact absurd hstageA hphase
  | sendErr e =>
    by_cases hlistening : s.output.phase.Listening
    · refine ⟨_, .sendErr hstageA hlistening ?_⟩
      rw [herrors hlistening]
      exact c.capacity_pos
    · exact ⟨_, .errLost hstageA hlistening⟩
  | sendJob job =>
    by_cases hstopped : s.resolvers.Stopped
    · exact ⟨_, .jobLost hstageA hstopped⟩
    · refine ⟨_, .sendJob hstageA hstopped ?_⟩
      rw [hjobs.resolve_left hstopped]
      exact c.capacity_pos
  | drain =>
    cases hnext : Reorder.remove WorkOutcome.id s.stageA.nextId s.stageA.reorder with
    | some p =>
      obtain ⟨o, rest⟩ := p
      obtain ⟨r, again, hchecks⟩ := c.exists_checks s.stageA.expectedStart o
      cases r with
      | ok res => exact ⟨_, .accept hstageA hnext hchecks⟩
      | error e => exact ⟨_, .refuse hstageA hnext hchecks⟩
    | none =>
      cases hresult : s.front.pool.output with
      | cons o rest => exact ⟨_, .recvOutcome hstageA hnext hresult⟩
      | nil =>
        rcases hfront hstageA hnext hresult with hstep | hstopped
        · exact hstep
        · exact ⟨_, .workerClosed hstageA hnext hresult hstopped⟩

/-- The front can step when its results have room, or it has stopped, or it waits for a slot. -/
theorem front_steps (hroom : s.stageA.phase ≠ .stopped → s.front.pool.output = []) :
    (∃ s', Step c s s') ∨ s.front.Finished ∨ s.front.Blocked := by
  have h : (∃ front, s.front.Step c.work c.capacity c.capacity False (s.stageA.phase ≠ .stopped)
      front) ∨ s.front.Finished ∨ s.front.Blocked :=
    Front.step_or_waits c.work_total c.capacity_pos
      (fun hphase => by rw [hroom hphase]; exact c.capacity_pos) False.elim
  exact h.imp (fun ⟨_, hstep⟩ => ⟨_, .front hstep⟩) id

/-- The resolve pool can step, or waits. -/
theorem resolvers_step (s : State c) : (∃ s', Step c s s') ∨
    s.resolvers.Quiet c.capacity (s.stageA.phase ≠ .stopped) s.output.phase.Listening := by
  have h : (∃ resolvers, s.resolvers.Step c.resolve c.capacity (s.stageA.phase ≠ .stopped)
      s.output.phase.Listening resolvers) ∨
      s.resolvers.Quiet c.capacity (s.stageA.phase ≠ .stopped) s.output.phase.Listening :=
    Pool.step_or_quiet c.resolve_total ..
  exact h.imp (fun ⟨_, hstep⟩ => ⟨_, .resolve hstep⟩) id

/-- Dispatch does not wait for a slot when nothing is on its way to the output stage: the
awaited chunk was admitted, so stage A would be waiting for it, too. -/
theorem Inv.not_blocked (hinv : Inv s) (hphase : s.output.phase = .drain)
    (hnext : Reorder.remove ResolveDone.id s.output.nextId s.output.reorder = none)
    (hresolvers : ∀ P Q, ¬s.resolvers.Carries P Q) (hstageA : s.stageA.phase = .drain)
    (hnextA : Reorder.remove WorkOutcome.id s.stageA.nextId s.stageA.reorder = none)
    (hresult : s.front.pool.output = []) : ¬s.front.Blocked := by
  rintro ⟨⟨a, rest, hfeeder⟩, ⟨g, hg, -, hfull⟩, hsend, hinput⟩
  have hlive := hinv.live (by simp [hphase, OutputPhase.Looping])
  have hstands := hinv.chained.stands
  rw [StageA.Stands, hstageA] at hstands
  have hat := hinv.sourced.tracks.at_items
  rw [hfeeder] at hat
  obtain ⟨hcount, -, hmax⟩ := hlive.counts g hg
  have hadmitted : s.front.admitted < c.items.length := by
    by_contra hle
    rw [Feeder.At, List.drop_eq_nil_of_le (Nat.le_of_not_lt hle)] at hat
    cases hat
  have hle : s.stageA.nextId ≤ s.output.nextId := by
    by_contra hlt
    have hposition : s.output.position = s.output.nextId := by simp [Output.position, hphase]
    rcases hlive.downstream s.output.nextId hposition.le (Nat.lt_of_not_le hlt) with
      hcarries | ⟨d, hd, hid⟩
    · exact hresolvers _ _ hcarries
    · exact Reorder.remove_eq_none hnext d hd hid
  have hcomplete := hlive.complete (by simp [hstageA])
  rcases hlive.upstream (by simp [hstageA, StageAPhase.Forwarding]) s.stageA.nextId
    hstands.1.ge (by omega) with (⟨item, hitem, hid⟩ | hcarries) | ⟨o, ho, hid⟩
  · rw [hfeeder, Feeder.pending, hat] at hitem
    have := c.le_id_of_mem_drop hitem
    omega
  · rcases hcarries with ⟨item, hitem, -⟩ | ⟨i, o, ho, -⟩ | ⟨o, ho, -⟩
    · have hempty : s.front.pool.input = [] := by
        rcases hinput with hstopped | hempty
        · exact (hcomplete.drained ⟨0, Nat.lt_of_lt_of_le (by decide) c.two_le_numThreads⟩
            (hstopped _)).1
        · exact hempty
      rw [hempty] at hitem
      cases hitem
    · exact hsend i o ho
    · rw [hresult] at ho
      cases ho
  · exact Reorder.remove_eq_none hnextA o ho hid

/-- After the shutdown nobody waits for a slot. -/
def ShutDown (s : State c) : Prop :=
  (s.output.phase = .joining ∨ ∃ r, s.output.phase = .returned r) →
    ∀ g, s.front.slots = some g → g.shutdown = true

/-- A step keeps the account of what is shut down. -/
theorem Step.shutDown (h : Step c s s') (hs : ShutDown s) : ShutDown s' := by
  intro hphase' g hg
  cases h with
  | front hfront => exact hfront.shut (hs hphase') g hg
  | deliver hphase _ =>
    rename_i final _
    cases final <;> simp at hphase'
  | shutdown _ =>
    obtain ⟨g', -, rfl⟩ := Option.map_eq_some_iff.mp hg
    rfl
  | join hphase _ _ _ => exact hs (Or.inl hphase) g hg
  | take _ _ _ => simp at hphase'
  | reject _ _ _ => simp at hphase'
  | finish _ _ _ => simp at hphase'
  | recvErr _ _ _ _ => simp at hphase'
  | resolveClosed _ _ _ _ _ _ => simp at hphase'
  | sinkClosed _ _ => simp at hphase'
  | dropDone _ => simp at hphase'
  | _ => exact hs hphase' g hg

/-- In every state the account of what is shut down holds. -/
theorem shutDown_of_reaches (h : Reaches (Move c) (init c) s) : ShutDown s := by
  refine h.invariant ShutDown (fun s s' hs hmove => ?_) (by simp [ShutDown, init])
  rcases hmove with hstep | hhangup
  · exact hstep.shutDown hs
  · cases hhangup
    exact hs

/-- Some thread can step until the call has returned. -/
theorem Inv.steps (hinv : Inv s) (hshutDown : ShutDown s) (hreturned : ∀ r, ¬s.Returned r) :
    ∃ s', Step c s s' := by
  cases hphase : s.output.phase with
  | returned r => exact absurd hphase (hreturned r)
  | deliver bytes final =>
    cases hsink : s.sink.isOpen with
    | true => exact ⟨_, .deliver hphase hsink⟩
    | false => exact ⟨_, .sinkClosed hphase hsink⟩
  | leave => exact ⟨_, .dropDone hphase⟩
  | closing => exact ⟨_, .shutdown hphase⟩
  | drain =>
    cases hnext : Reorder.remove ResolveDone.id s.output.nextId s.output.reorder with
    | some p =>
      obtain ⟨d, rest⟩ := p
      cases hstitch : stitch c.crc d s.output.member with
      | ok m => exact ⟨_, .take hphase hnext hstitch⟩
      | error e => exact ⟨_, .reject hphase hnext hstitch⟩
    | none =>
    by_cases hmore : s.output.nextId < c.items.length
    swap
    · exact ⟨_, .finish hphase hnext (Nat.le_of_not_lt hmore)⟩
    cases hdone : s.resolvers.output with
    | cons r rest =>
      cases r with
      | ok d => exact ⟨_, .recvDone hphase hnext hmore hdone⟩
      | error e => exact ⟨_, .recvErr hphase hnext hmore hdone⟩
    | nil =>
    -- nothing has arrived: the resolvers work, or they wait for stage A
    rcases resolvers_step s with hstep | hquiet
    · exact hstep
    have hidle := hquiet.idle fun _ => by rw [hdone]; exact c.capacity_pos
    by_cases hstopped : s.stageA.phase = .stopped
    · exact ⟨_, .resolveClosed hphase hnext hmore hdone hstopped fun i =>
        (hidle i).resolve_right fun h => h.2.2 hstopped⟩
    have hlive := hinv.live (by simp [hphase, OutputPhase.Looping])
    have hrecv := fun i => (hidle i).resolve_left (hlive.drained.running hstopped i)
    have hinput := (hrecv ⟨0, c.resolveThreads_pos⟩).2.1
    have hresolvers : ∀ P Q, ¬s.resolvers.Carries P Q := by
      rintro P Q (⟨job, hjob, -⟩ | ⟨i, r, hr, -⟩ | ⟨r, hr, -⟩)
      · rw [hinput] at hjob
        cases hjob
      · rw [(hrecv i).1] at hr
        cases hr
      · rw [hdone] at hr
        cases hr
    refine stageA_steps hstopped (fun hstageA hnextA hresult => ?_) (Or.inr hinput) fun _ => hdone
    rcases front_steps fun _ => hresult with hstep | hfinished | hblocked
    · exact Or.inl hstep
    · exact Or.inr hfinished.2
    · exact absurd hblocked (hinv.not_blocked hphase hnext hresolvers hstageA hnextA hresult)
  | joining =>
    have hblocked : ¬s.front.Blocked := by
      rintro ⟨-, ⟨g, hg, hopen, -⟩, -⟩
      rw [hshutDown (Or.inl hphase) g hg] at hopen
      cases hopen
    have hlistening : ¬s.output.phase.Listening := by simp [hphase, OutputPhase.Listening]
    rcases resolvers_step s with hstep | hquiet
    · exact hstep
    have hidle := hquiet.idle fun h => absurd h hlistening
    by_cases hstageA : s.stageA.phase = .stopped
    · have hresolvers : s.resolvers.Stopped := fun i =>
        (hidle i).resolve_right fun h => h.2.2 hstageA
      rcases front_steps fun h => absurd hstageA h with hstep | hfinished | hwaits
      · exact hstep
      · exact ⟨_, .join hphase hstageA hresolvers hfinished⟩
      · exact absurd hwaits hblocked
    · refine stageA_steps hstageA (fun _ _ hresult => ?_) ?_ fun h => absurd h hlistening
      · rcases front_steps fun _ => hresult with hstep | hfinished | hwaits
        · exact Or.inl hstep
        · exact Or.inr hfinished.2
        · exact absurd hwaits hblocked
      · by_cases hstopped : s.resolvers.Stopped
        · exact Or.inl hstopped
        · obtain ⟨i, hi⟩ := not_forall.mp hstopped
          exact Or.inr ((hidle i).resolve_left hi).2.1

/-- Every state that is reached before the call returns has a step of some thread, whatever the
chunks decode to and whatever the consumer does. -/
theorem exists_step_of_reaches (h : Reaches (Move c) (init c) s)
    (hreturned : ∀ r, ¬s.Returned r) : ∃ s', Step c s s' :=
  (inv_of_reaches h).steps (shutDown_of_reaches h) hreturned

/-- A call with one item, which cannot be decoded. -/
def failingCall : Config where
  crc := Crc.crc32
  bodyLen := 1
  items := [⟨0, 0, 10⟩]
  items_id i item h := by
    rw [List.getElem?_singleton] at h
    split at h
    · rename_i hi
      cases h
      exact hi.symm
    · cases h
  decode _ r := r = .error (.gzip .truncated)
  decode_total _ := ⟨_, rfl⟩
  decode_id _ _ h := by cases h
  numThreads := 2
  two_le_numThreads := le_rfl
  resolveThreads := 1
  resolveThreads_pos := Nat.one_pos
  maxInFlight := some 1

/-- The consumer has hung up, and the error of the item has reached the output stage, which goes
on. -/
theorem exists_step_of_reaches_failingCall :
    ∃ s, Reaches (Move failingCall) (init failingCall) s ∧ s.sink.isOpen = false ∧
      s.output.lastErr = some (.gzip .truncated) ∧ ∃ s', Step failingCall s s' := by
  let first : Fin failingCall.numThreads := ⟨0, Nat.two_pos⟩
  have hlistening {β : Type} {workers : Fin failingCall.numThreads → Worker β}
      (hrecv : workers first = .recv) : ¬∀ i, workers i = .stopped := by
    intro hstopped
    rw [hstopped first] at hrecv
    cases hrecv
  have hroom : 0 < 4 := by decide
  have hhangup : Reaches (Move failingCall) (init failingCall) _ := .single (Or.inr .hangup)
  -- dispatch hands the item to the first worker, which sends its error on
  have hslot := hhangup.tail (Or.inl (.front (.acquire rfl rfl)))
  have hsent := hslot.tail (Or.inl (.front (.send rfl (Or.inr (hlistening rfl)) hroom)))
  have htaken := hsent.tail
    (Or.inl (.front (.work (.take (i := first) rfl rfl ⟨_, rfl, rfl⟩))))
  have hgiven := htaken.tail (Or.inl (.front (.work (.give (i := first) rfl nofun hroom))))
  -- stage A decodes the item again, and the output stage receives the error
  have hreceived := hgiven.tail (Or.inl (.recvOutcome rfl rfl rfl))
  have hrefused := hreceived.tail (Or.inl (.refuse rfl rfl (Or.inr ⟨nofun, rfl, rfl⟩)))
  have herror := hrefused.tail (Or.inl (.sendErr rfl trivial hroom))
  have hleave := herror.tail (Or.inl (.recvErr rfl rfl Nat.one_pos rfl))
  exact ⟨_, hleave, rfl, rfl, exists_step_of_reaches hleave fun _ h => by cases h⟩

/-! ## Every run ends -/

/-- The steps of stage A that are left, and those of the resolve pool for what it holds. -/
def StageA.weight (a : StageA) : ℕ :=
  7 * a.reorder.length +
    match a.phase with
    | .drain => 5
    | .sendJob _ => 11
    | .sendErr _ => 4
    | .stopped => 0

/-- The steps of the output stage that are left. -/
def Output.weight (out : Output) : ℕ :=
  2 * out.reorder.length +
    match out.phase with
    | .drain => 4
    | .deliver _ _ => 5
    | .leave => 3
    | .closing => 2
    | .joining => 1
    | .returned _ => 0

/-- The steps that are left. -/
def State.weight (s : State c) : ℕ :=
  s.front.weight 8 + s.stageA.weight + s.resolvers.weight 3 + s.output.weight

/-- Every step makes the state lighter. -/
theorem Step.weight_lt (h : Step c s s') : s'.weight < s.weight := by
  simp only [State.weight]
  cases h with
  | front hfront =>
    have := hfront.weight_lt 8
    simp only
    omega
  | accept hphase hnext _ =>
    have := Reorder.length_remove_lt hnext
    simp only [StageA.weight, StageA.accept, hphase]
    omega
  | refuse hphase hnext _ =>
    have := Reorder.length_remove_lt hnext
    simp only [StageA.weight, hphase]
    omega
  | @recvOutcome o rest hphase _ hresult =>
    have hfront := Pool.weight_leave 8 hresult
    have hlength : (Reorder.insert WorkOutcome.id o s.stageA.reorder).length ≤
        s.stageA.reorder.length + 1 := Reorder.length_insert_le
    simp only [Front.weight, StageA.weight, hphase]
    split_ifs
    · simp only
      omega
    · simp only
      omega
  | workerClosed hphase _ _ _ =>
    simp only [StageA.weight, hphase]
    omega
  | @sendJob job hphase _ _ =>
    simp only [StageA.weight, hphase, Pool.weight_put]
    cases job.finalBlock <;> simp only [Bool.false_eq_true, if_true, if_false] <;> omega
  | jobLost hphase _ =>
    simp only [StageA.weight, hphase]
    omega
  | sendErr hphase _ _ =>
    simp only [StageA.weight, hphase, Pool.weight_emit]
    omega
  | errLost hphase _ =>
    simp only [StageA.weight, hphase]
    omega
  | resolve hresolvers =>
    have := hresolvers.weight_lt 3
    simp only
    omega
  | take hphase hnext _ =>
    have := Reorder.length_remove_lt hnext
    simp only [Output.weight, Output.take, hphase]
    omega
  | reject hphase hnext _ =>
    have := Reorder.length_remove_lt hnext
    simp only [Output.weight, Output.take, hphase]
    omega
  | finish hphase _ _ =>
    simp only [Output.weight, hphase]
    omega
  | @recvDone d rest hphase _ _ hdone =>
    have hpool := Pool.weight_leave 3 hdone
    have hlength : (Reorder.insert ResolveDone.id d s.output.reorder).length ≤
        s.output.reorder.length + 1 := Reorder.length_insert_le
    simp only [Output.weight, hphase]
    omega
  | recvErr hphase _ _ hdone =>
    have hpool := Pool.weight_leave 3 hdone
    simp only [Output.weight, hphase]
    omega
  | resolveClosed hphase _ _ _ _ _ =>
    simp only [Output.weight, hphase]
    omega
  | @deliver bytes final hphase _ =>
    simp only [Front.weight, Output.weight, hphase]
    cases final <;> simp only [Bool.false_eq_true, if_true, if_false] <;> omega
  | sinkClosed hphase _ =>
    simp only [Front.weight, Output.weight, hphase]
    omega
  | dropDone hphase =>
    simp only [Output.weight, hphase]
    omega
  | shutdown hphase =>
    simp only [Front.weight, Output.weight, hphase]
    omega
  | join hphase _ _ _ =>
    simp only [Output.weight, hphase]
    omega

/-- Whatever steps the threads take, the call returns. -/
theorem inevitable_returned (c : Config) :
    Inevitable (Step c) (fun s => Reaches (Step c) (init c) s ∧ ∃ r, s.Returned r) (init c) := by
  refine inevitable_of_measure (Reaches (Step c) (init c)) State.weight
    (fun _ _ hreach hstep => hreach.tail hstep) (fun _ _ _ hstep => hstep.weight_lt)
    (fun s hreach => ?_) .refl
  by_cases hreturned : ∃ r, s.Returned r
  · exact Or.inl ⟨hreach, hreturned⟩
  · have hmoves : Reaches (Move c) (init c) s := Reaches.mono hreach fun _ _ => Or.inl
    exact Or.inr ((inv_of_reaches hmoves).steps (shutDown_of_reaches hmoves)
      (not_exists.mp hreturned))

end Mmap

end Pipeline

end RustyRapidgzip
