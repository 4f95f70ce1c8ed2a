import RustyRapidgzip.Pipeline.Batches

/-!
# The teardown of the BGZF decoder

As long as the serializer takes results, some thread can go on: the batch it waits for has a
slot, so it is not dispatch that holds it back. When all batches decode, the serializer stays
until the threads have stopped by themselves.
-/

namespace RustyRapidgzip

open Crc Threads Transition

namespace Pipeline

namespace Bgzf

section Progress

variable {c : Config} {s s' : State c}

/-- A worker makes something of every batch. -/
theorem Config.work_total (b : Batch) : ∃ o, c.work b o := ⟨_, rfl⟩

/-- A worker stops only after dispatch. -/
def State.Drained (s : State c) : Prop := s.front.pool.Drained (¬s.front.feeder.Stopped)

/-- A worker stops only where nothing more is fed. -/
theorem Step.drained (h : Step c s s') (hs : s.Drained) : s'.Drained := by
  cases h with
  | front hfront => exact hfront.drained trivial trivial hs
  | _ => exact hs

/-- After the shutdown nobody waits for a slot. -/
def State.ShutDown (s : State c) : Prop :=
  s.serializer.phase = .joining → ∀ g, s.front.slots = some g → g.shutdown = true

/-- A step keeps the account of what is shut down. -/
theorem Step.shutDown (h : Step c s s') (hs : s.ShutDown) : s'.ShutDown := by
  intro hphase' g hg
  cases h with
  | front hfront => exact hfront.shut (hs hphase') g hg
  | shutdown _ =>
    obtain ⟨g', -, rfl⟩ := Option.map_eq_some_iff.mp hg
    rfl
  | recvBatch hphase _ _ =>
    rw [hphase] at hphase'
    cases hphase'
  | _ => cases hphase'

/-- Dispatch does not wait for a slot when nothing is on its way to the serializer: the batch that
it waits for has one. -/
theorem Inv.not_blocked (hinv : Inv s) (hphase : s.serializer.phase = .drain)
    (hnext : Reorder.remove Prod.fst s.serializer.nextId s.serializer.pending = none)
    (hresult : s.front.pool.output = []) : ¬s.front.Blocked := by
  rintro ⟨⟨a, rest, hfeeder⟩, ⟨g, hg, -, hfull⟩, hsend, hinput⟩
  have hlive := hinv.live (by simp [hphase, SerializerPhase.Looping])
  have hat := hinv.tracks.at_items
  rw [hfeeder] at hat
  obtain ⟨hcount, -, hmax⟩ := hlive.counts g hg
  have hadmitted : s.front.admitted < c.batches.length := by
    by_contra hle
    rw [Feeder.At, List.drop_eq_nil_of_le (Nat.le_of_not_lt hle)] at hat
    cases hat
  obtain ⟨b, hb⟩ : ∃ b, c.batches[s.serializer.nextId]? = some b :=
    ⟨_, List.getElem?_eq_getElem (show s.serializer.nextId < c.batches.length by omega)⟩
  have hid := c.batches_id _ b hb
  have hposition : s.serializer.position = s.serializer.nextId := by
    simp [Serializer.position, hphase]
  rcases hlive.carried _ b hposition.le hb with (⟨b', hb', rfl⟩ | hcarries) | ⟨p, hp, hkey⟩
  · rw [hfeeder, Feeder.pending, hat] at hb'
    have := c.le_id_of_mem_drop hb'
    omega
  · rcases hcarries with ⟨b', hb', -⟩ | ⟨i, o, ho, -⟩ | ⟨o, ho, -⟩
    · have hempty : s.front.pool.input = [] := by
        rcases hinput with hstopped | hempty
        · exact (hlive.complete.drained ⟨0, c.numThreads_pos⟩ (hstopped _)).1
        · exact hempty
      rw [hempty] at hb'
      cases hb'
    · exact hsend i o ho
    · rw [hresult] at ho
      cases ho
  · exact Reorder.remove_eq_none hnext p hp (by rw [hkey, hid])

/-- The front can step when its results have room, or it has stopped, or it waits for a slot. -/
theorem State.Drained.front_steps (hs : s.Drained)
    (hroom : s.front.pool.output.length < c.capacity) :
    (∃ s', Step c s s') ∨ s.front.Finished ∨ s.front.Blocked := by
  have h : (∃ front, s.front.Step c.work c.capacity c.capacity True True front) ∨
      s.front.Finished ∨ s.front.Blocked :=
    Front.step_or_waits c.work_total c.capacity_pos (fun _ => hroom) fun _ hstopped =>
      not_not.mp (hs ⟨0, c.numThreads_pos⟩ (hstopped _)).2
  exact h.imp (fun ⟨_, hstep⟩ => ⟨_, .front hstep⟩) id

/-- Until the threads have been joined there is a step, if their results have room once the
serializer has left. -/
theorem Inv.steps (hinv : Inv s) (hdrained : s.Drained) (hshutDown : s.ShutDown)
    (hphase : s.serializer.phase ≠ .joined)
    (hroom : s.serializer.phase = .joining → ¬s.front.Finished →
      s.front.pool.output.length < c.capacity) : ∃ s', Step c s s' := by
  cases hser : s.serializer.phase with
  | joined => exact absurd hser hphase
  | closing => exact ⟨_, .shutdown hser⟩
  | deliver bytes =>
    cases hsink : s.sink.isOpen with
    | true => exact ⟨_, .deliver hser hsink⟩
    | false => exact ⟨_, .sinkClosed hser hsink⟩
  | drain =>
    cases hnext : Reorder.remove Prod.fst s.serializer.nextId s.serializer.pending with
    | some r => exact ⟨_, .take hser hnext⟩
    | none =>
      cases hresult : s.front.pool.output with
      | cons o rest =>
        cases o with
        | ok p => exact ⟨_, .recvBatch hser hnext hresult⟩
        | error e => exact ⟨_, .recvErr hser hnext hresult⟩
      | nil =>
        rcases hdrained.front_steps (by rw [hresult]; exact c.capacity_pos) with
          hstep | hfinished | hblocked
        · exact hstep
        · exact ⟨_, .recvEnd hser hnext hresult hfinished.2⟩
        · exact absurd hblocked (hinv.not_blocked hser hnext hresult)
  | joining =>
    by_cases hfinished : s.front.Finished
    · exact ⟨_, .join hser hfinished⟩
    rcases hdrained.front_steps (hroom hser hfinished) with hstep | hfinished' | hblocked
    · exact hstep
    · exact absurd hfinished' hfinished
    · obtain ⟨-, ⟨g, hg, hopen, -⟩, -⟩ := hblocked
      rw [hshutDown hser g hg] at hopen
      cases hopen

/-- The steps of the serializer that are left, and those for what it holds. -/
def Serializer.weight (ser : Serializer) : ℕ :=
  2 * ser.pending.length +
    match ser.phase with
    | .drain => 3
    | .deliver _ => 4
    | .closing => 2
    | .joining => 1
    | .joined => 0

/-- A bound on the steps of all threads that are left. -/
def State.weight (s : State c) : ℕ := s.front.weight 3 + s.serializer.weight

/-- Every step makes the state lighter. -/
theorem Step.weight_lt (h : Step c s s') : s'.weight < s.weight := by
  unfold State.weight
  cases h with
  | front hfront =>
    have := hfront.weight_lt 3
    simp only
    omega
  | @recvBatch p rest hphase _ hresult =>
    have hpool := Pool.weight_leave 3 hresult
    have hlength : (Reorder.insert Prod.fst p s.serializer.pending).length ≤
        s.serializer.pending.length + 1 := Reorder.length_insert_le
    simp only [Front.weight, Serializer.weight, hphase]
    omega
  | recvErr hphase _ hresult =>
    have hpool := Pool.weight_leave 3 hresult
    simp only [Front.weight, Serializer.weight, hphase]
    omega
  | recvEnd hphase _ _ _ =>
    simp only [Serializer.weight, hphase]
    omega
  | take hphase hnext =>
    have := Reorder.length_remove_lt hnext
    simp only [Serializer.weight, hphase]
    omega
  | deliver hphase _ =>
    simp only [Front.weight, Serializer.weight, hphase]
    omega
  | sinkClosed hphase _ =>
    simp only [Front.weight, Serializer.weight, hphase]
    omega
  | shutdown hphase =>
    simp only [Front.weight, Serializer.weight, hphase]
    omega
  | join hphase _ =>
    simp only [Serializer.weight, hphase]
    omega

/-- In every state a worker has stopped only where nothing more is fed. -/
theorem drained_of_reaches (h : Reaches (Move c) (init c) s) : s.Drained := by
  refine h.invariant State.Drained (fun s s' hs hmove => ?_) Pool.drained_start
  rcases hmove with hstep | hhangup
  · exact hstep.drained hs
  · cases hhangup
    exact hs

/-- In every state the account of what is shut down holds. -/
theorem shutDown_of_reaches (h : Reaches (Move c) (init c) s) : s.ShutDown := by
  refine h.invariant State.ShutDown (fun s s' hs hmove => ?_) (by simp [State.ShutDown, init])
  rcases hmove with hstep | hhangup
  · exact hstep.shutDown hs
  · cases hhangup
    exact hs

/-- When the threads have been joined, they have stopped. -/
theorem finished_of_reaches (h : Reaches (Move c) (init c) s)
    (hphase : s.serializer.phase = .joined) : s.front.Finished := by
  refine h.invariant (fun s => s.serializer.phase = .joined → s.front.Finished)
    (fun s s' hs hmove => ?_) (by simp [init]) hphase
  rcases hmove with hstep | hhangup
  swap
  · cases hhangup
    exact hs
  intro hjoined
  cases hstep with
  | front hfront => exact absurd hfront (hs hjoined).not_step
  | join _ hfinished => exact hfinished
  | recvBatch hphase _ _ =>
    rw [hphase] at hjoined
    cases hjoined
  | _ => cases hjoined

/-- With batches that decode and an open sink, the serializer does not fail. -/
theorem done_of_reaches (hok : ∀ b ∈ c.batches, ∃ bytes, Decoded c b bytes)
    (h : Reaches (Step c) (init c) s)
    (hphase : s.serializer.phase = .closing ∨ s.serializer.phase = .joining ∨
      s.serializer.phase = .joined) : s.Done := by
  have hstands := (inv_of_reaches_step h).stands
  have hleft : s.Failed ∨ s.Done := by
    rcases hphase with hphase | hphase | hphase <;>
    · rw [State.Stands, hphase] at hstands
      exact hstands
  apply hleft.resolve_left
  rintro (⟨b, hb, e, herr, -⟩ | ⟨hclosed, -⟩)
  · obtain ⟨bytes, hbytes⟩ := hok b hb
    rw [Decoded, herr] at hbytes
    cases hbytes
  · rw [sinkOpen_of_reaches h] at hclosed
    cases hclosed

/-- With batches that decode and an open sink, every run comes to its end. -/
theorem inevitable_joined (hok : ∀ b ∈ c.batches, ∃ bytes, Decoded c b bytes) :
    Inevitable (Step c) (fun s => s.serializer.phase = .joined) (init c) := by
  refine inevitable_of_measure (Reaches (Step c) (init c)) State.weight
    (fun _ _ hreach hstep => hreach.tail hstep) (fun _ _ _ hstep => hstep.weight_lt)
    (fun s hreach => ?_) .refl
  by_cases hphase : s.serializer.phase = .joined
  · exact Or.inl hphase
  have hmoves : Reaches (Move c) (init c) s := Reaches.mono hreach fun _ _ => Or.inl
  refine Or.inr ((inv_of_reaches hmoves).steps (drained_of_reaches hmoves)
    (shutDown_of_reaches hmoves) hphase fun hjoining hfinished => ?_)
  have hdone := done_of_reaches hok hreach (Or.inr (Or.inl hjoining))
  exact absurd hdone.finished hfinished

/-! ## Leaving early -/

/-- The serializer has left its loop early. -/
def State.LeftEarly (s : State c) : Prop := s.serializer.lastErr ≠ none

/-- The teardown goes on: dispatch and the workers have stopped, or some thread can step. -/
def State.GoesOn (s : State c) : Prop := s.front.Finished ∨ ∃ s', Step c s s'

/-- A move that, if the serializer leaves its loop early by it, leaves no more results to come than
their channel holds. -/
def MoveWithRoom (c : Config) (s s' : State c) : Prop :=
  Move c s s' ∧ (¬s.LeftEarly → s'.LeftEarly → s'.front.toCome ≤ c.capacity)

/-- A serializer that has left its loop early is not in it. -/
theorem Inv.not_looping (hinv : Inv s) (hleft : s.LeftEarly) : ¬s.serializer.phase.Looping := by
  intro hloop
  have hstands := hinv.stands
  cases hphase : s.serializer.phase with
  | drain =>
    rw [State.Stands, hphase] at hstands
    exact hleft hstands.lastErr_eq
  | deliver bytes =>
    rw [State.Stands, hphase] at hstands
    exact hleft hstands.1.lastErr_eq
  | _ =>
    rw [hphase] at hloop
    exact hloop.elim

/-- After the serializer has left early, no step lets more results come. -/
theorem Step.leftEarly (hinv : Inv s) (h : Step c s s') (hleft : s.LeftEarly) :
    s'.LeftEarly ∧ s'.front.toCome ≤ s.front.toCome := by
  have hloop := hinv.not_looping hleft
  cases h with
  | front hfront => exact ⟨hleft, (hfront.toCome_eq trivial trivial).le⟩
  | shutdown _ => exact ⟨hleft, Front.toCome_close_le⟩
  | join _ _ => exact ⟨hleft, le_rfl⟩
  | recvBatch hphase _ _ => exact absurd (by simp [hphase, SerializerPhase.Looping]) hloop
  | recvErr hphase _ _ => exact absurd (by simp [hphase, SerializerPhase.Looping]) hloop
  | recvEnd hphase _ _ _ => exact absurd (by simp [hphase, SerializerPhase.Looping]) hloop
  | take hphase _ => exact absurd (by simp [hphase, SerializerPhase.Looping]) hloop
  | deliver hphase _ => exact absurd (by simp [hphase, SerializerPhase.Looping]) hloop
  | sinkClosed hphase _ => exact absurd (by simp [hphase, SerializerPhase.Looping]) hloop

/-- A serializer that leaves early goes on to close the slots. -/
theorem Step.closing (h : Step c s s') (hbefore : ¬s.LeftEarly) (hleft : s'.LeftEarly) :
    s'.serializer.phase = .closing := by
  cases h with
  | recvErr _ _ _ => rfl
  | sinkClosed _ _ => rfl
  | _ => exact absurd hleft hbefore

/-- A consumer that hangs up does not make the serializer leave. -/
theorem Hangup.leftEarly (h : Hangup c s s') (hleft : s'.LeftEarly) :
    s.LeftEarly ∧ s'.front = s.front := by
  cases h
  exact ⟨hleft, rfl⟩

/-- In a run with room, the results still to come have room after the serializer has left early. -/
theorem toCome_le_of_reaches (h : Reaches (MoveWithRoom c) (init c) s) (hleft : s.LeftEarly) :
    s.front.toCome ≤ c.capacity := by
  refine (h.invariant (fun s => Inv s ∧ (s.LeftEarly → s.front.toCome ≤ c.capacity)) ?_
    ⟨inv_init c, fun hleft => absurd rfl hleft⟩).2 hleft
  rintro s s' ⟨hinv, hs⟩ ⟨hmove, hroom⟩
  refine ⟨hmove.elim (Step.inv hinv) (Hangup.inv hinv), fun hleft' => ?_⟩
  by_cases hbefore : s.LeftEarly
  · rcases hmove with hstep | hhangup
    · exact (hstep.leftEarly hinv hbefore).2.trans (hs hbefore)
    · rw [(hhangup.leftEarly hleft').2]
      exact hs hbefore
  · exact hroom hbefore hleft'

/-- Where the results still to come have room, the teardown goes on. -/
theorem State.goesOn_of_toCome (h : Reaches (Move c) (init c) s) (hleft : s.LeftEarly)
    (hroom : s.front.toCome ≤ c.capacity) : s.GoesOn := by
  have hinv := inv_of_reaches h
  have hdrained := drained_of_reaches h
  have hloop := hinv.not_looping hleft
  have hstopped : s.front.pool.Stopped → s.front.feeder.Stopped := fun hstopped =>
    not_not.mp (hdrained ⟨0, c.numThreads_pos⟩ (hstopped _)).2
  cases hphase : s.serializer.phase with
  | closing => exact Or.inr ⟨_, .shutdown hphase⟩
  | joining =>
    rcases Front.step_or_finished c.work_total c.capacity_pos (shutDown_of_reaches h hphase)
      hstopped hroom with ⟨front, hfront⟩ | hfinished
    · exact Or.inr ⟨_, .front hfront⟩
    · exact Or.inl hfinished
  | joined => exact Or.inl (finished_of_reaches h hphase)
  | _ => exact absurd (by simp [hphase, SerializerPhase.Looping]) hloop

/-- The channel of the results does not overflow. -/
theorem output_le_of_reaches (h : Reaches (Move c) (init c) s) :
    s.front.pool.output.length ≤ c.capacity := by
  refine h.invariant (fun s => s.front.pool.output.length ≤ c.capacity)
    (fun s s' hs hmove => ?_) (Nat.zero_le _)
  rcases hmove with hstep | hhangup
  swap
  · cases hhangup
    exact hs
  cases hstep with
  | front hfront => exact hfront.output_le hs
  | recvBatch _ _ hresult =>
    rw [hresult, List.length_cons] at hs
    exact Nat.le_of_succ_le hs
  | recvErr _ _ hresult =>
    rw [hresult, List.length_cons] at hs
    exact Nat.le_of_succ_le hs
  | _ => exact hs

/-- A run of the front is a run of the call. -/
theorem reaches_front {front : Front c.numThreads Batch (Except Error (ℕ × List UInt8))}
    (h : Reaches (Front.Step c.work c.capacity c.capacity True True) s.front front) :
    Reaches (Step c) s { s with front := front } := by
  induction h with
  | refl => exact .refl
  | tail _ hlast ih => exact ih.tail (.front hlast)

/-- Without room for the results still to come, a worker may hold one forever: the threads are
never joined. -/
theorem exists_deadlock (h : Reaches (Move c) (init c) s) (hphase : s.serializer.phase = .closing)
    (hmore : c.capacity < s.front.toCome) :
    ∃ s', Reaches (Step c) s s' ∧ ¬s'.front.Finished ∧ ∀ t, ¬Step c s' t := by
  have hlower := fun (f f' : Front c.numThreads Batch (Except Error (ℕ × List UInt8)))
    (hstep : f.Step c.work c.capacity c.capacity True True f') => hstep.weight_lt 0
  obtain ⟨f, hreach, hend⟩ := exists_terminal (Front.weight 0) hlower s.front
  have hreach' : Reaches (Move c) (init c) { s with front := f } :=
    h.trans (Reaches.mono (reaches_front hreach) fun _ _ => Or.inl)
  have htoCome : f.toCome = s.front.toCome :=
    hreach.invariant (fun f => f.toCome = s.front.toCome)
      (fun _ _ heq hstep => (hstep.toCome_eq trivial trivial).trans heq) rfl
  have hstuck : f.Stuck c.capacity := Front.stuck_of_toCome c.work_total c.numThreads_pos
    c.capacity_pos hend (drained_of_reaches hreach') (output_le_of_reaches hreach') (by omega)
  obtain ⟨f', hreach₂, hend'⟩ := exists_terminal (Front.weight 0) hlower
    ({ f with slots := f.slots.close } : Front c.numThreads Batch _)
  have hstuck' : f'.Stuck c.capacity := hreach₂.invariant (Front.Stuck c.capacity)
    (fun _ _ hs hstep => hstep.stuck trivial hs) hstuck
  refine ⟨{ s with front := f', serializer := { s.serializer with phase := .joining } }, ?_,
    hstuck'.not_finished, fun t ht => ?_⟩
  · have hshutdown : Step c { s with front := f }
        { s with
          front := { f with slots := f.slots.close }
          serializer := { s.serializer with phase := .joining } } := .shutdown hphase
    exact ((reaches_front hreach).tail hshutdown).trans (reaches_front hreach₂)
  · cases ht with
    | front hfront => exact hend' _ hfront
    | join _ hfinished => exact hstuck'.not_finished hfinished
    | recvBatch hphase' _ _ => cases hphase'
    | recvErr hphase' _ _ => cases hphase'
    | recvEnd hphase' _ _ _ => cases hphase'
    | take hphase' _ => cases hphase'
    | deliver hphase' _ => cases hphase'
    | sinkClosed hphase' _ => cases hphase'
    | shutdown hphase' => cases hphase'

/-- A serializer that leaves early with more results to come than have room may never join the
threads. -/
theorem Step.exists_not_goesOn (hreach : Reaches (Move c) (init c) s) (hstep : Step c s s')
    (hbefore : ¬s.LeftEarly) (hleft : s'.LeftEarly) (hmore : c.capacity < s'.front.toCome) :
    ∃ s'', Reaches (Step c) s' s'' ∧ s''.LeftEarly ∧ ¬s''.GoesOn := by
  have hreach' : Reaches (Move c) (init c) s' := hreach.tail (Or.inl hstep)
  obtain ⟨s'', hreach'', hfinished, hend⟩ :=
    exists_deadlock hreach' (hstep.closing hbefore hleft) hmore
  have hinv := hreach''.invariant (fun s => Inv s ∧ s.LeftEarly)
    (fun _ _ hs hstep => ⟨hstep.inv hs.1, (hstep.leftEarly hs.1 hs.2).1⟩)
    ⟨inv_of_reaches hreach', hleft⟩
  exact ⟨s'', hreach'', hinv.2, fun hgoesOn => hgoesOn.elim hfinished (not_exists.mpr hend)⟩

/-- In every run in which the results still to come have room whenever the serializer leaves early,
the teardown goes on until dispatch and the workers have stopped. Where they have no room, it may
come to a stop before. -/
theorem teardown_goesOn (c : Config) :
    (∀ s, Reaches (MoveWithRoom c) (init c) s → s.LeftEarly → s.GoesOn) ∧
      ∀ s s', Reaches (Move c) (init c) s → Step c s s' → ¬s.LeftEarly → s'.LeftEarly →
        c.capacity < s'.front.toCome →
        ∃ s'', Reaches (Step c) s' s'' ∧ s''.LeftEarly ∧ ¬s''.GoesOn := by
  constructor
  · intro s hreach hleft
    exact State.goesOn_of_toCome (Reaches.mono hreach fun _ _ h => h.1) hleft
      (toCome_le_of_reaches hreach hleft)
  · intro s s' hreach hstep hbefore hleft hmore
    exact hstep.exists_not_goesOn hreach hbefore hleft hmore

end Progress

section Broken

variable {file block : List UInt8} {w : Walk}

/-- A block that fills the batch. -/
theorem walkRound_full (chunkTarget : ℕ) {size : ℕ}
    (hsize : Gzip.parseBgzfBlockSize (file.drop w.pos) = some size)
    (hfits : w.pos + size ≤ file.length) (hfull : w.target ≤ w.curBytes + size) :
    walkRound file chunkTarget w =
      .inl { (w.push size).flush none with target := min (w.target * 2) chunkTarget } := by
  have hpos := (Gzip.parseBgzfBlockSize_bounds hsize).1
  have hfull' : (w.push size).target ≤ (w.push size).curBytes := hfull
  simp only [walkRound, if_pos (show w.pos < file.length by omega), hsize,
    if_neg (show ¬file.length < w.pos + size by omega), if_pos hfull']
  rfl

/-- Blocks that each fill a batch: there is a batch for each of them. -/
theorem walkFrom_full {blocks rounds chunkTarget : ℕ}
    (hsize : ∀ rest, Gzip.parseBgzfBlockSize (block ++ rest) = some block.length)
    (hchunk : chunkTarget ≤ block.length) (hrounds : blocks < rounds) (hcur : w.cur = [])
    (htarget : w.target ≤ block.length)
    (hfile : file.drop w.pos = (List.replicate blocks block).flatten) :
    ∃ batches, (walkFrom file chunkTarget rounds w).1.batches = w.batches ++ batches ∧
      (walkFrom file chunkTarget rounds w).1.cur = [] ∧ batches.length = blocks ∧
      ∀ b ∈ batches, ∃ range, b.ranges = [range] ∧ slice file range = block := by
  induction blocks generalizing rounds w with
  | zero =>
    obtain ⟨rounds, rfl⟩ := Nat.exists_eq_add_of_lt hrounds
    have hend : ¬w.pos < file.length := by
      rw [List.replicate_zero, List.flatten_nil, List.drop_eq_nil_iff] at hfile
      omega
    refine ⟨[], ?_, ?_, rfl, by simp⟩ <;> simp [walkFrom, walkRound, hend, hcur]
  | succ blocks ih =>
    obtain ⟨rounds, rfl⟩ := Nat.exists_eq_add_of_lt hrounds
    rw [List.replicate_succ, List.flatten_cons] at hfile
    have hfits : w.pos + block.length ≤ file.length := by
      have := congrArg List.length hfile
      rw [List.length_drop, List.length_append] at this
      have := (Gzip.parseBgzfBlockSize_bounds (hsize [])).1
      omega
    have hround := @walkRound_full file w chunkTarget block.length (by rw [hfile, hsize])
      hfits (by omega)
    have hdrop : file.drop (w.pos + block.length) = (List.replicate blocks block).flatten := by
      rw [← List.drop_drop, hfile, List.drop_left]
    obtain ⟨batches, hbatches, hcur', hlength, hranges⟩ := @ih
      { (w.push block.length).flush none with target := min (w.target * 2) chunkTarget }
      (blocks + 1 + rounds) (by omega)
      rfl ((Nat.min_le_right _ _).trans hchunk) hdrop
    have hwalk : walkFrom file chunkTarget (blocks + 1 + rounds + 1) w =
        walkFrom file chunkTarget (blocks + 1 + rounds)
          { (w.push block.length).flush none with target := min (w.target * 2) chunkTarget } := by
      rw [walkFrom, hround]
    have hslice : slice file (w.pos, w.pos + block.length) = block := by
      simp only [slice, hfile, Nat.add_sub_cancel_left, List.take_left]
    refine ⟨⟨w.id, w.firstMember, [(w.pos, w.pos + block.length)], (w.pos + block.length, none)⟩ ::
      batches, ?_, ?_, ?_, ?_⟩
    · rw [hwalk, hbatches]
      simp only [Walk.flush, Walk.push, hcur, List.nil_append, List.append_assoc, List.cons_append]
    · rw [hwalk, hcur']
    · rw [List.length_cons, hlength]
    · intro b hb
      rcases List.mem_cons.mp hb with rfl | hb
      · exact ⟨_, rfl, hslice⟩
      · exact hranges b hb

/-- The first slot can be acquired. -/
theorem exists_acquire_start (max : Option ℕ) :
    ∃ slots, Slots.acquire (max.map InflightCap.new) = some (true, slots) := by
  cases max with
  | none => exact ⟨none, rfl⟩
  | some max =>
    have hfree : (InflightCap.new max).inFlight < (InflightCap.new max).max :=
      Nat.lt_of_lt_of_le Nat.one_pos (Nat.le_max_right _ _)
    refine ⟨some { InflightCap.new max with inFlight := 1 }, ?_⟩
    simp only [Option.map_some, Slots.acquire, Semaphore.acquire, if_pos hfree]
    rfl

/-- Before the serializer has left, the front runs with room. -/
theorem reaches_front_withRoom {c : Config} {s : State c}
    {front : Front c.numThreads Batch (Except Error (ℕ × List UInt8))} (hbefore : ¬s.LeftEarly)
    (h : Reaches (Front.Step c.work c.capacity c.capacity True True) s.front front) :
    Reaches (MoveWithRoom c) s { s with front := front } := by
  induction h with
  | refl => exact .refl
  | tail _ hlast ih => exact ih.tail ⟨Or.inl (.front hlast), fun _ hleft => absurd hleft hbefore⟩

/-- The result of a first batch that does not decode lets the serializer leave early, with all
others to come. -/
theorem exists_firstError {c : Config} {b : Batch} {batches : List Batch} {e : Error}
    (hbatches : c.batches = b :: batches) (herr : decodeBatch c.crc c.file b = .error e) :
    ∃ f s', Reaches (Front.Step c.work c.capacity c.capacity True True) (init c).front f ∧
      Step c { init c with front := f } s' ∧ s'.LeftEarly ∧
      s'.front.toCome + 1 = Slots.free c.batches.length (c.maxInFlight.map InflightCap.new) := by
  obtain ⟨slots, hslot⟩ := exists_acquire_start c.maxInFlight
  obtain ⟨f, hreach, houtput⟩ := @Front.exists_first_result c.numThreads Batch
    (Except Error (ℕ × List UInt8)) c.work c.capacity c.capacity True True _ _ b batches _
    c.numThreads_pos hslot herr.symm c.capacity_pos c.capacity_pos trivial
  rw [← hbatches] at hreach
  have hstart : (init c).front.toCome =
      Slots.free c.batches.length (c.maxInFlight.map InflightCap.new) := by
    simp only [init, Front.toCome, Front.start, Feeder.toCome, Pool.load_start, Nat.add_zero]
  have htoCome : f.toCome = (init c).front.toCome :=
    hreach.invariant (fun f => f.toCome = (init c).front.toCome)
      (fun _ _ heq hstep => (hstep.toCome_eq trivial trivial).trans heq) rfl
  have hload := Pool.load_leave houtput
  refine ⟨f, _, hreach, .recvErr rfl rfl houtput, Option.some_ne_none e, ?_⟩
  rw [← hstart, ← htoCome, Front.toCome, Front.toCome]
  simp only
  omega

/-- A first batch that does not decode lets the serializer leave early, with all others to come. -/
theorem exists_leavesEarly {c : Config} {b : Batch} {batches : List Batch} {e : Error}
    (hbatches : c.batches = b :: batches) (herr : decodeBatch c.crc c.file b = .error e) :
    ∃ s s', Reaches (MoveWithRoom c) (init c) s ∧ Step c s s' ∧ ¬s.LeftEarly ∧ s'.LeftEarly ∧
      s'.front.toCome + 1 = Slots.free c.batches.length (c.maxInFlight.map InflightCap.new) := by
  obtain ⟨f, s', hreach, hstep, hleft, htoCome⟩ := exists_firstError hbatches herr
  exact ⟨_, s', reaches_front_withRoom (fun hleft => hleft rfl) hreach, hstep,
    fun hleft => hleft rfl, hleft, htoCome⟩

/-- The header of a block of 64 KiB with reserved flags. -/
def brokenHeader : List UInt8 :=
  [0x1f, 0x8b, 0x08, 0xe4, 0, 0, 0, 0, 0, 0xff, 6, 0, 0x42, 0x43, 2, 0, 0xff, 0xff]

/-- The header declares a block of 64 KiB. -/
theorem parseBgzfBlockSize_brokenHeader (rest : List UInt8) :
    Gzip.parseBgzfBlockSize (brokenHeader ++ rest) = some 65536 := by
  have hlength : (brokenHeader ++ rest).length = 18 + rest.length := List.length_append
  have hmagic : ¬((brokenHeader ++ rest).length < 12 ∨
      (brokenHeader ++ rest).take 2 ≠ Gzip.GZ_MAGIC ∨
      (brokenHeader ++ rest).getD 2 0 ≠ Gzip.CM_DEFLATE) := by
    rintro (hshort | hmagic | hmethod)
    · omega
    · exact hmagic rfl
    · exact hmethod rfl
  have hflag : ¬(brokenHeader ++ rest).getD 3 0 &&& Gzip.FEXTRA = 0 := by
    change ¬(0xe4 : UInt8) &&& Gzip.FEXTRA = 0
    decide
  have hxlen : ¬(brokenHeader ++ rest).length < 12 + 6 := by omega
  have hsub : Gzip.bgzfSubfield (brokenHeader ++ rest) 18 18 12 =
      some (LsbBits.leNat [0xff, 0xff] + 1) := rfl
  have hsize : LsbBits.leNat [0xff, 0xff] = 65535 := by decide
  rw [Gzip.parseBgzfBlockSize, if_neg hmagic, if_neg hflag]
  rw [hsize] at hsub
  exact (if_neg hxlen).trans hsub

/-- The header has reserved flags, and no decoder accepts it. -/
theorem decodeOneIndexedFast_brokenHeader (crc : Checksum) (rest out : List UInt8) (member : ℕ) :
    Gzip.decodeOneIndexedFast crc (brokenHeader ++ rest) out member =
      .error (.reservedFlags 0xe4) := by
  have hlength : (brokenHeader ++ rest).length = 18 + rest.length := List.length_append
  have hheader : Gzip.parseHeader (brokenHeader ++ rest) = .error (.reservedFlags 0xe4) := by
    have hflags : (0xe4 : UInt8) &&& Gzip.FRESERVED ≠ 0 := by decide
    have hmagic : ¬(brokenHeader ++ rest).take 2 ≠ Gzip.GZ_MAGIC := not_not.mpr rfl
    have hmethod : ¬(brokenHeader ++ rest).getD 2 0 ≠ Gzip.CM_DEFLATE := not_not.mpr rfl
    rw [Gzip.parseHeader, if_neg (by omega), if_neg hmagic]
    exact (if_neg hmethod).trans (if_pos hflags)
  rw [Gzip.decodeOneIndexedFast, hheader]
  rfl

/-- A block of 64 KiB with this header. -/
def brokenBlock : List UInt8 := brokenHeader ++ List.replicate 65518 0

/-- The block has 64 KiB. -/
theorem brokenBlock_length : brokenBlock.length = 65536 := by
  rw [brokenBlock, List.length_append, List.length_replicate]
  rfl

/-- A call with one worker for a file of such blocks. -/
def brokenBlocks (blocks : ℕ) : Config where
  crc := crc32
  build := narrow16
  file := (List.replicate blocks brokenBlock).flatten
  chunkSizeBytes := 0
  numThreads := 1
  numThreads_pos := Nat.one_pos
  resolveThreads := 1
  resolveThreads_pos := Nat.one_pos
  maxInFlight := some 16
  scan _ := [0]
  scan_ne_nil _ := List.cons_ne_nil 0 []

/-- With one thread the channels have room for two results. -/
theorem brokenBlocks_capacity (blocks : ℕ) : (brokenBlocks blocks).capacity = 2 := rfl

/-- There is a batch for each of the blocks, and none decodes. -/
theorem brokenBlocks_batches (blocks : ℕ) : (brokenBlocks blocks).batches.length = blocks ∧
    ∀ b ∈ (brokenBlocks blocks).batches,
      decodeBatch crc32 (brokenBlocks blocks).file b = .error (.gzip (.reservedFlags 0xe4)) := by
  have hsize (rest : List UInt8) :
      Gzip.parseBgzfBlockSize (brokenBlock ++ rest) = some brokenBlock.length := by
    rw [brokenBlock_length, brokenBlock, List.append_assoc]
    exact parseBgzfBlockSize_brokenHeader _
  have hrounds : blocks < (brokenBlocks blocks).file.length + 1 := by
    rw [brokenBlocks, List.length_flatten, List.map_replicate, List.sum_replicate, smul_eq_mul,
      brokenBlock_length]
    omega
  have hchunk : max (brokenBlocks blocks).chunkSizeBytes (64 * 1024) ≤ brokenBlock.length := by
    rw [brokenBlock_length]
    exact le_rfl
  obtain ⟨batches, hbatches, hcur, hlength, hranges⟩ := @walkFrom_full (brokenBlocks blocks).file
    brokenBlock .new blocks _ _ hsize hchunk hrounds rfl brokenBlock_length.ge rfl
  have heq : (brokenBlocks blocks).batches = batches := by
    simp only [Config.batches, walk, hcur, ne_eq, not_true, if_false]
    exact hbatches
  rw [heq]
  refine ⟨hlength, fun b hb => ?_⟩
  obtain ⟨range, hrange, hslice⟩ := hranges b hb
  have hdecode := decodeOneIndexedFast_brokenHeader crc32 (List.replicate 65518 0) [] b.firstMember
  simp only [decodeBatch, decodeRanges, hrange, hslice, brokenBlock, hdecode]

/-- A run in which the serializer leaves at the first block, with all others still to come. -/
theorem brokenBlocks_leavesEarly (blocks : ℕ) :
    ∃ s s', Reaches (MoveWithRoom (brokenBlocks (blocks + 1))) (init _) s ∧ Step _ s s' ∧
      ¬s.LeftEarly ∧ s'.LeftEarly ∧ s'.front.toCome + 1 = min (blocks + 1) 16 := by
  obtain ⟨hlength, herr⟩ := brokenBlocks_batches (blocks + 1)
  cases hbatches : (brokenBlocks (blocks + 1)).batches with
  | nil =>
    rw [hbatches] at hlength
    cases hlength
  | cons b batches =>
    have hleaves := exists_leavesEarly hbatches
      (herr b (by rw [hbatches]; exact List.mem_cons_self))
    rw [hlength] at hleaves
    exact hleaves

/-- With one worker and a broken block, the results of three more blocks have no room, and the
threads may never be joined. -/
theorem exists_stuck_teardown :
    ∃ s, Reaches (Move (brokenBlocks 4)) (init _) s ∧ s.LeftEarly ∧ ¬s.GoesOn := by
  obtain ⟨s, s', hreach, hstep, hbefore, hleft, htoCome⟩ := brokenBlocks_leavesEarly 3
  have hreach' := Reaches.mono hreach fun _ _ h => h.1
  obtain ⟨s'', hreach'', hleft'', hstuck⟩ := hstep.exists_not_goesOn hreach' hbefore hleft
    (by rw [brokenBlocks_capacity]; omega)
  exact ⟨s'', (hreach'.tail (Or.inl hstep)).trans (Reaches.mono hreach'' fun _ _ => Or.inl),
    hleft'', hstuck⟩

/-- A broken block alone does not hold up the teardown, and four of them may. -/
theorem teardown_goesOn_brokenBlocks :
    (∃ s, Reaches (MoveWithRoom (brokenBlocks 1)) (init _) s ∧ s.LeftEarly ∧ s.GoesOn) ∧
      ∃ s, Reaches (Move (brokenBlocks 4)) (init _) s ∧ s.LeftEarly ∧ ¬s.GoesOn := by
  constructor
  · obtain ⟨s, s', hreach, hstep, hbefore, hleft, htoCome⟩ := brokenBlocks_leavesEarly 0
    have hreach' : Reaches (MoveWithRoom (brokenBlocks 1)) (init _) s' :=
      hreach.tail ⟨Or.inl hstep, fun _ _ => by
        rw [brokenBlocks_capacity]
        omega⟩
    exact ⟨s', hreach', hleft, (teardown_goesOn _).1 s' hreach' hleft⟩
  · obtain ⟨s, s', hreach, hstep, hbefore, hleft, htoCome⟩ := brokenBlocks_leavesEarly 3
    have hreach' := Reaches.mono hreach fun _ _ h => h.1
    obtain ⟨s'', hreach'', hleft'', hstuck⟩ := (teardown_goesOn _).2 s s' hreach' hstep hbefore
      hleft (by rw [brokenBlocks_capacity]; omega)
    exact ⟨s'', (hreach'.tail (Or.inl hstep)).trans (Reaches.mono hreach'' fun _ _ => Or.inl),
      hleft'', hstuck⟩

end Broken

end Bgzf

end Pipeline

end RustyRapidgzip
