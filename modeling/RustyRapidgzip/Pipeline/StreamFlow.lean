import RustyRapidgzip.Pipeline.StreamChain

/-!
# What flows through the streaming decoder

Whatever the order of the steps, stage A follows the chain of the dispatched items, the jobs are
its chunks with the tails before them, and the resolve pool emits what they resolve to. While the
output stage is in its loop, a thread that has stopped has a reason in the chain, in the
dispatcher, or in the reader.
-/

namespace RustyRapidgzip

open Crc Threads Transition

namespace Pipeline

namespace Streaming

/-- A read fails with a message. -/
inductive ReadFails (c : Config) (msg : String) : State c → State c → Prop
  | mk {s : State c}
      (hphase : s.dispatcher.phase = .start ∨ ∃ st, s.dispatcher.phase = .look st) :
      ReadFails c msg s
        { s with
          dispatcher := { s.dispatcher with phase := .returned (.error (.failed (.io msg))) } }

/-- A step of one of the threads, with a reader that fails with these messages only. -/
def Reads (c : Config) (F : String → Prop) (s s' : State c) : Prop :=
  Step c s s' ∧ ∀ msg, ReadFails c msg s s' → F msg

/-- A run of the threads, with a reader that fails with these messages only, and of the
consumer. -/
def Call (c : Config) (F : String → Prop) (s s' : State c) : Prop :=
  Reads c F s s' ∨ Hangup c s s'

/-- Why the dispatcher stops early: the first header, a target, or a read. -/
def DispatchFails (c : Config) (F : String → Prop) (e : DispatchError) : Prop :=
  c.dispatched = .error e ∨ ∃ msg, F msg ∧ e = .failed (.io msg)

/-! ## The dispatcher -/

section Dispatcher

variable {c : Config} {F : String → Prop} {s s' : State c} {st final : DispatchState}

/-- A run of the dispatcher sends one more item at least. -/
theorem sent_of_iterate {fuel : ℕ}
    (h : Loop.iterate (.failed (.deflate .outOfFuel)) c.round fuel st = .ok final) :
    st.sent <+: final.sent ∧ st.sent.length < final.sent.length := by
  induction fuel generalizing st with
  | zero => cases h
  | succ fuel ih =>
    cases hround : c.round st with
    | error e =>
      rw [Loop.iterate_fail hround] at h
      cases h
    | ok next =>
      have hnumbers := round_numbers hround
      cases next with
      | inl st' =>
        rw [Loop.iterate_continue hround] at h
        obtain ⟨hpre, hlt⟩ := ih h
        rcases hnumbers with ⟨_, ⟨⟩, hsent, -⟩ | ⟨sent, hsent, -⟩
        · rw [hsent] at hpre hlt
          exact ⟨hpre, hlt⟩
        · have hsent' : st'.sent = st.sent ++ [sent] := hsent
          rw [hsent'] at hpre hlt
          rw [List.length_append, List.length_singleton] at hlt
          exact ⟨(List.prefix_append _ _).trans hpre, by omega⟩
      | inr st' =>
        rw [Loop.iterate_break hround] at h
        cases h
        obtain ⟨_, hcontinue, -⟩ | ⟨sent, hsent, -⟩ := hnumbers
        · cases hcontinue
        · have hsent' : final.sent = st.sent ++ [sent] := hsent
          rw [hsent']
          exact ⟨List.prefix_append _ _, by simp⟩

/-- The items are those that were sent. -/
theorem Config.items_eq {k : ℕ} {sent : List Sent} (h : c.dispatched = .ok (k, sent)) :
    c.items = sent.map Sent.item := by
  rw [Config.items, h]

/-- Short items fit. -/
theorem Config.itemsFit_of_short {k : ℕ} {sent : List Sent} (h : c.dispatched = .ok (k, sent))
    (hshort : ∀ s ∈ sent, s.item.bytes.length ≤ 63) : c.ItemsFit := by
  intro item hitem
  rw [Config.items_eq h] at hitem
  obtain ⟨s, hs, rfl⟩ := List.mem_map.mp hitem
  exact Item.fits_of_short c.build (hshort s hs)

/-- A dispatcher on its course has an item to send yet. -/
theorem OnCourse.sent_lt (h : OnCourse c st) : st.sent.length < c.items.length := by
  obtain ⟨fuel, final, hiterate, hdispatched⟩ := h.leads
  rw [Config.items_eq hdispatched, List.length_map]
  exact (sent_of_iterate hiterate).2

/-- What was sent before a place on the course is the beginning of the items. -/
theorem Leads.prefix_rest {next : DispatchState ⊕ DispatchState} (h : Leads c next) :
    (nextState next).sent.map Sent.item <+: c.items := by
  cases next with
  | inl st =>
    obtain ⟨fuel, final, hiterate, hdispatched⟩ := h.leads
    rw [Config.items_eq hdispatched]
    exact (sent_of_iterate hiterate).1.map Sent.item
  | inr st =>
    have hdispatched : c.dispatched = .ok (st.src.totalRead, st.sent) := h
    rw [Config.items_eq hdispatched]
    exact List.prefix_rfl

/-- An item that was cut has its number as its place. -/
theorem Cuts.getElem? {item : Item} {next : DispatchState ⊕ DispatchState} (h : Cuts c item next) :
    c.items[item.id]? = some item := by
  obtain ⟨hleads, before, sent, hsent, rfl, hlength⟩ := h
  obtain ⟨rest, hrest⟩ := hleads.prefix_rest
  rw [← hrest, hsent, ← hlength]
  simp

/-- The dispatcher has returned for a reason that it knows itself. -/
def Dispatcher.Ended (c : Config) (F : String → Prop) (d : Dispatcher) : Prop :=
  ∃ r, d.phase = .returned r ∧
    ((∃ k sent, r = .ok k ∧ c.dispatched = .ok (k, sent) ∧ d.put = sent.length) ∨
      ∃ e, r = .error e ∧ DispatchFails c F e)

/-- More than the numbers of all items that were put into the work channel. Without the last item
the dispatcher does not return a result before it is told to. -/
def Dispatcher.bound (c : Config) (d : Dispatcher) : ℕ :=
  match d.phase with
  | .start => 0
  | .look st => st.id
  | .recvToken item _ | .send item _ => item.id
  | .returned (.ok _) => c.items.length
  | .returned (.error _) => c.items.length - 1

/-- An item that was put into the work channel. -/
def IsItem (c : Config) (bound : ℕ) (item : Item) : Prop :=
  c.items[item.id]? = some item ∧ item.id < bound

/-- An item that was taken up stays one. -/
theorem IsItem.mono {item : Item} {n n' : ℕ} (h : IsItem c n item) (hle : n ≤ n') :
    IsItem c n' item :=
  ⟨h.1, Nat.lt_of_lt_of_le h.2 hle⟩

/-- What a step of the dispatcher puts into the work channel. -/
theorem DispatchStep.bound_cases (hnumbered : Numbered s) (hcourse : s.dispatcher.OnCourse c)
    (hstep : DispatchStep c s s') : s.dispatcher.bound c ≤ s'.dispatcher.bound c ∧
      (s'.workers = s.workers ∨ ∃ item, IsItem c (s'.dispatcher.bound c) item ∧
        s'.workers = s.workers.put item) := by
  have hstands := hnumbered.dispatcher
  unfold Dispatcher.Stands at hstands
  unfold Dispatcher.OnCourse at hcourse
  cases hstep with
  | start hphase _ =>
    refine ⟨?_, Or.inl rfl⟩
    simp only [Dispatcher.bound, hphase]
    exact le_rfl
  | badHeader hphase _ =>
    refine ⟨?_, Or.inl rfl⟩
    simp only [Dispatcher.bound, hphase]
    exact Nat.zero_le _
  | readFails hphase =>
    refine ⟨?_, Or.inl rfl⟩
    rcases hphase with hphase | ⟨st, hphase⟩
    · simp only [Dispatcher.bound, hphase]
      exact Nat.zero_le _
    · rw [hphase] at hcourse
      have hlt := hcourse.sent_lt
      have hid := hcourse.id_eq
      simp only [Dispatcher.bound, hphase]
      omega
  | abort hphase _ =>
    rw [hphase] at hcourse
    have hlt := hcourse.sent_lt
    have hid := hcourse.id_eq
    refine ⟨?_, Or.inl rfl⟩
    simp only [Dispatcher.bound, hphase]
    omega
  | more hphase _ hround hsent =>
    refine ⟨?_, Or.inl rfl⟩
    simp only [Dispatcher.bound, hphase]
    exact ((round_numbers hround).more hsent).ge
  | cut hphase _ hround hsent =>
    refine ⟨?_, Or.inl rfl⟩
    simp only [Dispatcher.bound, hphase]
    exact ((round_numbers hround).cut hsent).1.ge
  | fail hphase _ _ =>
    rw [hphase] at hcourse
    have hlt := hcourse.sent_lt
    have hid := hcourse.id_eq
    refine ⟨?_, Or.inl rfl⟩
    simp only [Dispatcher.bound, hphase]
    omega
  | wrapMore hphase _ _ hid =>
    refine ⟨?_, Or.inl rfl⟩
    simp only [Dispatcher.bound, hphase]
    exact hid.ge
  | wrapCut hphase _ _ hid _ =>
    refine ⟨?_, Or.inl rfl⟩
    simp only [Dispatcher.bound, hphase]
    exact hid.ge
  | recvToken hphase _ =>
    refine ⟨?_, Or.inl rfl⟩
    simp only [Dispatcher.bound, hphase]
    exact le_rfl
  | tokenClosed hphase _ _ =>
    rw [hphase] at hcourse
    have hlt := (List.getElem?_eq_some_iff.mp hcourse.getElem?).1
    refine ⟨?_, Or.inl rfl⟩
    simp only [Dispatcher.bound, hphase]
    exact hlt.le
  | @send item next hphase _ _ =>
    rw [hphase] at hstands hcourse
    have hitem := hcourse.getElem?
    have hlt := (List.getElem?_eq_some_iff.mp hitem).1
    have hbound : item.id < Dispatcher.bound c { s.dispatcher with phase := afterSend next } := by
      cases next with
      | inl st =>
        simp only [Dispatcher.bound, afterSend, hstands.2 st rfl]
        exact Nat.lt_succ_self _
      | inr st => exact hlt
    refine ⟨?_, Or.inr ⟨item, ⟨hitem, hbound⟩, rfl⟩⟩
    simp only [Dispatcher.bound, hphase]
    exact hbound.le
  | lost hphase _ =>
    rw [hphase] at hcourse
    have hlt := (List.getElem?_eq_some_iff.mp hcourse.getElem?).1
    refine ⟨?_, Or.inl rfl⟩
    simp only [Dispatcher.bound, hphase]
    omega

end Dispatcher

/-! ## The chain of stage A -/

/-- The results before stage A come from items that were put into the work channel. -/
structure Sourced {c : Config} (s : State c) : Prop where
  workers : s.workers.Every (IsItem c (s.dispatcher.bound c))
    fun r => ∃ item, IsItem c (s.dispatcher.bound c) item ∧ Unbounded.Work item r
  reorder : ∀ d ∈ s.stageA.reorder,
    ∃ item, IsItem c (s.dispatcher.bound c) item ∧ Unbounded.Work item (.ok d)
  position_le : s.stageA.position ≤ s.dispatcher.bound c

/-- Where stage A stands in its chain. -/
def StageA.Stands (c : Config) (a : StageA) : Prop :=
  match a.phase with
  | .drain => ∃ rs, Chain c.items rs ∧ Unfinished rs ∧ a.nextId = rs.length ∧
      a.prevTail = tailChain (rs.map DecodeResult.chunk)
  | .sendJob job => ∃ before r, Chain c.items (before ++ [r]) ∧ a.nextId = before.length ∧
      job = jobAt before r ∧ a.prevTail = tailChain ((before ++ [r]).map DecodeResult.chunk)
  | .sendErr e => Fails c e
  | .stopped => True

/-- A job that stage A has handed on. -/
def StageA.IsJob (c : Config) (a : StageA) (job : ResolveJob) : Prop :=
  ∃ before r, Chain c.items (before ++ [r]) ∧ before.length < a.nextId ∧ job = jobAt before r

/-- What a job that stage A has handed on resolves to. -/
def StageA.IsDone (c : Config) (a : StageA) (d : DecodeResult) : Prop :=
  ∃ job, a.IsJob c job ∧ resolveJob job = .ok d

/-- What the resolve pool makes of the jobs: resolved chunks, or errors that have a cause. -/
def StageA.IsOutcome (c : Config) (a : StageA) (r : Except Error DecodeResult) : Prop :=
  (∀ d, r = .ok d → a.IsDone c d) ∧ ∀ e, r = .error e → Fails c e

/-- The jobs and the resolved chunks come from stage A. -/
structure Resolving {c : Config} (s : State c) : Prop where
  pool : s.resolvers.Every (s.stageA.IsJob c) (s.stageA.IsOutcome c)
  reorder : ∀ d ∈ s.output.reorder, s.stageA.IsDone c d

section Chains

variable {c : Config} {s s' : State c} {a a' : StageA}

/-- A resolved chunk stays one while stage A goes on. -/
theorem StageA.IsDone.mono {d : DecodeResult} (h : a.IsDone c d) (hle : a.nextId ≤ a'.nextId) :
    a'.IsDone c d := by
  obtain ⟨job, ⟨before, r, hchain, hlt, hjob⟩, hdone⟩ := h
  exact ⟨job, ⟨before, r, hchain, Nat.lt_of_lt_of_le hlt hle, hjob⟩, hdone⟩

/-- What is being resolved stays right while stage A goes on. -/
theorem Resolving.mono {resolvers : Pool c.resolveThreads ResolveJob (Except Error DecodeResult)}
    {s' : State c} (hreorder : ∀ d ∈ s.output.reorder, s.stageA.IsDone c d)
    (hpool : resolvers.Every (s.stageA.IsJob c) (s.stageA.IsOutcome c))
    (hle : s.stageA.nextId ≤ s'.stageA.nextId) (hresolvers : s'.resolvers = resolvers)
    (houtput : s'.output.reorder = s.output.reorder) : Resolving s' where
  pool := by
    rw [hresolvers]
    refine hpool.mono ?_ fun r h => ⟨fun d hd => (h.1 d hd).mono hle, h.2⟩
    rintro job ⟨before, r, hchain, hlt, hjob⟩
    exact ⟨before, r, hchain, Nat.lt_of_lt_of_le hlt hle, hjob⟩
  reorder d hd := by
    rw [houtput] at hd
    exact (hreorder d hd).mono hle

/-- The dispatcher hands on its own items. -/
theorem DispatchStep.sourced (hnumbered : Numbered s) (hcourse : s.dispatcher.OnCourse c)
    (h : Sourced s) (hstep : DispatchStep c s s') : Sourced s' := by
  obtain ⟨hle, hworkers⟩ := hstep.bound_cases hnumbered hcourse
  have hsame : s'.stageA = s.stageA := by cases hstep <;> rfl
  have hresult {r : Except Error DecodeResult}
      (h : ∃ item, IsItem c (s.dispatcher.bound c) item ∧ Unbounded.Work item r) :
      ∃ item, IsItem c (s'.dispatcher.bound c) item ∧ Unbounded.Work item r := by
    obtain ⟨item, hitem, hwork⟩ := h
    exact ⟨item, hitem.mono hle, hwork⟩
  have hmono := h.workers.mono (fun _ hitem => hitem.mono hle) fun _ => hresult
  refine ⟨?_, fun d hd => ?_, ?_⟩
  · rcases hworkers with heq | ⟨item, hitem, heq⟩
    · rw [heq]
      exact hmono
    · rw [heq]
      exact hmono.put hitem
  · rw [hsame] at hd
    exact hresult (h.reorder d hd)
  · rw [hsame]
    exact h.position_le.trans hle

/-- The chunk that stage A takes from its map next is the one of the next item. -/
theorem Sourced.next (h : Sourced s) {res : DecodeResult} {rest : List DecodeResult}
    (hnext : Reorder.remove DecodeResult.id s.stageA.nextId s.stageA.reorder = some (res, rest)) :
    res.id = s.stageA.nextId ∧ s.stageA.nextId < s.dispatcher.bound c ∧
      ∃ item, c.items[s.stageA.nextId]? = some item ∧ Unbounded.Work item (.ok res) := by
  obtain ⟨hres, hid⟩ := Reorder.remove_eq_some hnext
  obtain ⟨item, ⟨hitem, hlt⟩, hwork⟩ := h.reorder res hres
  have hsame : item.id = s.stageA.nextId := by
    obtain ⟨r, -, rfl⟩ := hwork.itemRun
    exact hid
  rw [hsame] at hitem hlt
  exact ⟨hid, hlt, item, hitem, hwork⟩

/-- Stage A keeps the results those of the items. -/
theorem StageAStep.sourced (h : Sourced s) (hstep : StageAStep c s s') : Sourced s' := by
  have hle := h.position_le
  unfold StageA.position at hle
  cases hstep with
  | accept hphase hnext =>
    refine ⟨h.workers, fun d hd => h.reorder d (Reorder.mem_of_mem_remove hnext hd), ?_⟩
    exact (h.next hnext).2.1
  | recvResult hphase _ _ hresult =>
    obtain ⟨hres, hworkers⟩ := h.workers.leave hresult
    refine ⟨hworkers, fun d hd => ?_, h.position_le⟩
    rcases Reorder.mem_of_mem_insert hd with rfl | hd
    · exact hres
    · exact h.reorder d hd
  | recvErr hphase _ _ hresult =>
    rw [hphase] at hle
    exact ⟨(h.workers.leave hresult).2, h.reorder, hle⟩
  | workersDone _ _ _ _ _ => exact ⟨h.workers, h.reorder, h.position_le⟩
  | finish hphase _ _ =>
    rw [hphase] at hle
    exact ⟨h.workers, h.reorder, hle⟩
  | @sendJob job hphase _ _ =>
    rw [hphase] at hle
    refine ⟨h.workers, h.reorder, ?_⟩
    unfold StageA.position
    cases job.finalBlock <;> exact hle
  | jobLost hphase _ =>
    rw [hphase] at hle
    exact ⟨h.workers, h.reorder, (Nat.le_succ _).trans hle⟩
  | sendErr hphase _ _ =>
    rw [hphase] at hle
    exact ⟨h.workers, h.reorder, hle⟩
  | errLost hphase _ =>
    rw [hphase] at hle
    exact ⟨h.workers, h.reorder, hle⟩

/-- Every step keeps the results those of the items. -/
theorem Step.sourced (hfits : c.ItemsFit) (hnumbered : Numbered s)
    (hcourse : s.dispatcher.OnCourse c) (h : Sourced s) (hstep : Step c s s') : Sourced s' := by
  cases hstep with
  | dispatch hstep => exact hstep.sourced hnumbered hcourse h
  | work hworkers =>
    refine ⟨hworkers.every (fun item r hitem hwork => ⟨item, hitem, ?_⟩) h.workers, h.reorder,
      h.position_le⟩
    exact (hfits item (List.mem_of_getElem? hitem.1)).work hwork
  | stageA hstep => exact hstep.sourced h
  | resolve _ => exact ⟨h.workers, h.reorder, h.position_le⟩
  | output hstep =>
    cases hstep <;> exact ⟨h.workers, h.reorder, h.position_le⟩

/-- The last chunk makes the tail from the one before it. -/
theorem tailChain_snoc (chunks : List SpeculativeChunk) (chunk : SpeculativeChunk) :
    tailChain (chunks ++ [chunk]) = buildPrevTailFast chunk (tailChain chunks) := by
  rw [tailChain, List.foldl_append]
  rfl

/-- Stage A keeps the accepted chunks a chain. -/
theorem StageAStep.stands (hsourced : Sourced s) (h : s.stageA.Stands c)
    (hstep : StageAStep c s s') : s'.stageA.Stands c := by
  unfold StageA.Stands at h
  cases hstep with
  | @accept res rest hphase hnext =>
    rw [hphase] at h
    obtain ⟨rs, hchain, hopen, hlength, htail⟩ := h
    obtain ⟨hid, -, item, hitem, hwork⟩ := hsourced.next hnext
    refine ⟨rs, res, .snoc hchain hopen (hlength ▸ hitem) hwork, hlength, ?_, ?_⟩
    · simp only [jobAt, hid, hlength, htail]
    · simp only [List.map_append, List.map_singleton, tailChain_snoc, htail]
  | recvResult hphase _ _ _ =>
    rw [hphase] at h
    unfold StageA.Stands
    simp only [hphase]
    exact h
  | recvErr hphase _ _ hresult =>
    obtain ⟨item, ⟨hitem, -⟩, hwork⟩ := (hsourced.workers.leave hresult).1
    exact Fails.decode (List.mem_of_getElem? hitem) hwork
  | workersDone hphase _ _ _ _ =>
    rw [hphase] at h
    unfold StageA.Stands
    simp only [hphase]
    exact h
  | finish _ _ _ => exact trivial
  | @sendJob job hphase _ _ =>
    rw [hphase] at h
    obtain ⟨before, r, hchain, hlength, rfl, htail⟩ := h
    obtain ⟨-, hopen, -⟩ := chain_snoc_iff.mp hchain
    unfold StageA.Stands
    cases hfinal : r.finalBlock with
    | true => simp only [jobAt, hfinal, if_true]
    | false =>
      simp only [jobAt, hfinal, Bool.false_eq_true, if_false]
      exact ⟨before ++ [r], hchain, (unfinished_snoc hopen).mpr hfinal, by simp [hlength], htail⟩
  | jobLost _ _ => exact trivial
  | sendErr _ _ _ => exact trivial
  | errLost _ _ => exact trivial

/-- Every step keeps the accepted chunks a chain. -/
theorem Step.stands (hsourced : Sourced s) (h : s.stageA.Stands c) (hstep : Step c s s') :
    s'.stageA.Stands c := by
  cases hstep with
  | dispatch hstep =>
    have hsame : s'.stageA = s.stageA := by cases hstep <;> rfl
    rwa [hsame]
  | work _ => exact h
  | stageA hstep => exact hstep.stands hsourced h
  | resolve _ => exact h
  | output hstep =>
    have hsame : s'.stageA = s.stageA := by cases hstep <;> rfl
    rwa [hsame]

/-- Stage A hands jobs of accepted chunks to the pool. -/
theorem StageAStep.resolving (hstands : s.stageA.Stands c) (h : Resolving s)
    (hstep : StageAStep c s s') : Resolving s' := by
  unfold StageA.Stands at hstands
  cases hstep with
  | accept _ _ => exact .mono h.reorder h.pool le_rfl rfl rfl
  | recvResult _ _ _ _ => exact .mono h.reorder h.pool le_rfl rfl rfl
  | recvErr _ _ _ _ => exact .mono h.reorder h.pool le_rfl rfl rfl
  | workersDone _ _ _ _ _ => exact .mono h.reorder h.pool le_rfl rfl rfl
  | finish _ _ _ => exact .mono h.reorder h.pool le_rfl rfl rfl
  | @sendJob job hphase _ _ =>
    rw [hphase] at hstands
    obtain ⟨before, r, hchain, hlength, rfl, -⟩ := hstands
    have hmono : Resolving { s with stageA := { s.stageA with nextId := s.stageA.nextId + 1 } } :=
      .mono h.reorder h.pool (Nat.le_succ _) rfl rfl
    refine ⟨hmono.pool.put ⟨before, r, hchain, ?_, rfl⟩, hmono.reorder⟩
    simp only
    omega
  | jobLost _ _ => exact .mono h.reorder h.pool le_rfl rfl rfl
  | @sendErr e hphase _ _ =>
    rw [hphase] at hstands
    have hfails : s.stageA.IsOutcome c (.error e) := by
      refine ⟨nofun, ?_⟩
      rintro _ ⟨⟩
      exact hstands
    exact .mono h.reorder (h.pool.emit hfails) le_rfl rfl rfl
  | errLost _ _ => exact .mono h.reorder h.pool le_rfl rfl rfl

/-- The output stage takes resolved chunks only. -/
theorem OutputStep.resolving (h : Resolving s) (hstep : OutputStep c s s') : Resolving s' := by
  cases hstep with
  | take _ hnext _ =>
    exact ⟨h.pool, fun d hd => h.reorder d (Reorder.mem_of_mem_remove hnext hd)⟩
  | reject _ hnext _ =>
    exact ⟨h.pool, fun d hd => h.reorder d (Reorder.mem_of_mem_remove hnext hd)⟩
  | recvDone _ _ _ hdone =>
    obtain ⟨hd, hpool⟩ := h.pool.leave hdone
    refine ⟨hpool, fun d' hd' => ?_⟩
    rcases Reorder.mem_of_mem_insert hd' with rfl | hd'
    · exact hd.1 _ rfl
    · exact h.reorder d' hd'
  | recvErr _ _ _ hdone => exact ⟨(h.pool.leave hdone).2, h.reorder⟩
  | sendToken _ _ _ => exact ⟨h.pool, by simpa using h.reorder⟩
  | tokenLost _ _ => exact ⟨h.pool, by simpa using h.reorder⟩
  | _ => exact ⟨h.pool, h.reorder⟩

/-- Every step keeps the resolved chunks those of the jobs. -/
theorem Step.resolving (hstands : s.stageA.Stands c) (h : Resolving s) (hstep : Step c s s') :
    Resolving s' := by
  cases hstep with
  | dispatch hstep =>
    cases hstep <;> exact ⟨h.pool, h.reorder⟩
  | work _ => exact ⟨h.pool, h.reorder⟩
  | stageA hstep => exact hstep.resolving hstands h
  | resolve hresolvers =>
    refine ⟨hresolvers.every ?_ h.pool, h.reorder⟩
    rintro job _ ⟨before, r, hchain, hlt, rfl⟩ rfl
    refine ⟨fun d hd => ⟨_, ⟨before, r, hchain, hlt, rfl⟩, hd⟩, fun e he => .resolve hchain he⟩
  | output hstep => exact hstep.resolving h

end Chains

/-! ## Why threads have stopped -/

/-- An error is on its way to the output stage. -/
def State.ErrorUnderWay {c : Config} (s : State c) : Prop :=
  s.resolvers.Carries (fun _ => False) fun r => ∀ d, r ≠ .ok d

/-- What holds while the output stage is in its loop: whoever has stopped has a reason. -/
structure Going {c : Config} (F : String → Prop) (s : State c) : Prop where
  ended : s.stageA.phase ≠ .stopped → s.dispatcher.Returned → s.dispatcher.Ended c F
  whole : ∀ k, s.dispatcher.phase = .returned (.ok k) → ∃ sent, c.dispatched = .ok (k, sent)
  closedA : s.stageA.closed = true →
    s.workers.Stopped ∧ s.workers.output = [] ∧ s.dispatcher.Ended c F
  stopped : s.stageA.phase = .stopped → s.ErrorUnderWay ∨
    (∃ rs, Chain c.items rs ∧ ¬Unfinished rs ∧ rs.length = s.stageA.nextId) ∨
      (s.dispatcher.Ended c F ∧ s.dispatcher.put ≤ s.stageA.nextId)
  closed : s.output.closed = true →
    s.resolvers.Stopped ∧ s.resolvers.output = [] ∧ s.stageA.phase = .stopped

section Going

variable {c : Config} {F : String → Prop} {s s' : State c}

/-- A dispatcher that has ended has returned. -/
theorem Dispatcher.Ended.returned {d : Dispatcher} (h : d.Ended c F) : d.Returned := by
  obtain ⟨r, hr, -⟩ := h
  exact ⟨r, hr⟩

/-- A step of the dispatcher, after which it has a reason to have returned. -/
theorem Going.of_dispatcher {d : Dispatcher} {token : TokenChannel}
    {workers : Pool c.numThreads Item (Except Error DecodeResult)} (h : Going F s)
    (hrunning : ¬s.dispatcher.Returned)
    (hended : s.stageA.phase ≠ .stopped → d.Returned → d.Ended c F)
    (hwhole : ∀ k, d.phase = .returned (.ok k) → ∃ sent, c.dispatched = .ok (k, sent)) :
    Going F { s with dispatcher := d, token := token, workers := workers } where
  ended := hended
  whole := hwhole
  closedA hclosed := absurd (h.closedA hclosed).2.2.returned hrunning
  stopped hstopped := by
    rcases h.stopped hstopped with herror | hlast | ⟨hended', -⟩
    · exact Or.inl herror
    · exact Or.inr (Or.inl hlast)
    · exact absurd hended'.returned hrunning
  closed := h.closed

/-- The dispatcher goes on. -/
theorem Going.of_running {d : Dispatcher} {token : TokenChannel}
    {workers : Pool c.numThreads Item (Except Error DecodeResult)} (h : Going F s)
    (hrunning : ¬s.dispatcher.Returned) (hrunning' : ¬d.Returned) :
    Going F { s with dispatcher := d, token := token, workers := workers } :=
  h.of_dispatcher hrunning (fun _ hreturned => absurd hreturned hrunning') fun k hk =>
    absurd ⟨.ok k, hk⟩ hrunning'

/-- The dispatcher keeps the account of why threads have stopped. -/
theorem DispatchStep.going (hn : 0 < c.numThreads) (hfind : Answers c.find)
    (hnumbered : Numbered s) (hcourse : s.dispatcher.OnCourse c) (hlive : Live s) (h : Going F s)
    (hstep : DispatchStep c s s') (hF : ∀ msg, ReadFails c msg s s' → F msg) : Going F s' := by
  have hrunning := hstep.running
  have hstands := hnumbered.dispatcher
  unfold Dispatcher.Stands at hstands
  unfold Dispatcher.OnCourse at hcourse
  have hfails {e : DispatchError} {taken : ℕ} (hcause : DispatchFails c F e) :
      Dispatcher.Ended c F ⟨.returned (.error e), taken⟩ := ⟨_, rfl, Or.inr ⟨e, rfl, hcause⟩⟩
  cases hstep with
  | start _ _ => exact h.of_running hrunning (by rintro ⟨_, ⟨⟩⟩)
  | badHeader _ hstrip =>
    refine h.of_dispatcher hrunning (fun _ _ => hfails (Or.inl ?_)) nofun
    unfold Config.dispatched dispatch
    rw [hstrip]
  | readFails hphase =>
    exact h.of_dispatcher hrunning (fun _ _ => hfails (Or.inr ⟨_, hF _ (.mk hphase), rfl⟩)) nofun
  | abort _ habort =>
    rw [hlive.abort_eq] at habort
    cases habort
  | more _ _ _ _ => exact h.of_running hrunning (by rintro ⟨_, ⟨⟩⟩)
  | cut _ _ _ _ => exact h.of_running hrunning (by rintro ⟨_, ⟨⟩⟩)
  | fail hphase _ hround =>
    rw [hphase] at hcourse
    obtain ⟨next, hround', -⟩ := hcourse.round hfind
    rw [hround] at hround'
    cases hround'
  | wrapMore _ _ _ _ => exact h.of_running hrunning (by rintro ⟨_, ⟨⟩⟩)
  | wrapCut _ _ _ _ _ => exact h.of_running hrunning (by rintro ⟨_, ⟨⟩⟩)
  | recvToken _ _ => exact h.of_running hrunning (by rintro ⟨_, ⟨⟩⟩)
  | tokenClosed _ _ hclosed =>
    rw [hlive.hasSender_eq] at hclosed
    cases hclosed
  | @send item next hphase _ _ =>
    rw [hphase] at hstands hcourse
    cases next with
    | inl st => exact h.of_running hrunning (by rintro ⟨_, ⟨⟩⟩)
    | inr st =>
      obtain ⟨hdispatched, before, sent, hsent, -, hlength⟩ := hcourse
      have hput : s.dispatcher.taken = st.sent.length := by
        have hsent' : st.sent = before ++ [sent] := hsent
        rw [hsent', List.length_append, List.length_singleton, hlength, hstands.1]
      refine h.of_dispatcher hrunning (fun _ _ =>
        ⟨_, rfl, Or.inl ⟨_, _, rfl, hdispatched, hput⟩⟩) ?_
      rintro _ ⟨⟩
      exact ⟨_, hdispatched⟩
  | lost _ hstopped =>
    have hstageA : s.stageA.phase = .stopped := by
      by_contra hopen
      exact (hlive.fed hopen).running hrunning ⟨0, hn⟩ (hstopped _)
    exact h.of_dispatcher hrunning (fun hopen => absurd hstageA hopen) nofun

/-- A pool whose workers have stopped makes no step. -/
theorem not_step_of_stopped {n : ℕ} {α β : Type} {work : α → β → Prop} {capacity : ℕ}
    {fed taken : Prop} {p p' : Pool n α β} (h : p.Stopped) :
    ¬p.Step work capacity fed taken p' := by
  intro hstep
  cases hstep with
  | take hw _ _ =>
    rw [h] at hw
    cases hw
  | close hw _ _ =>
    rw [h] at hw
    cases hw
  | give hw _ _ =>
    rw [h] at hw
    cases hw
  | drop hw _ =>
    rw [h] at hw
    cases hw

/-- Stage A keeps the account of why threads have stopped. -/
theorem StageAStep.going (hn : 0 < c.numThreads) (hlive : Live s) (hstands : s.stageA.Stands c)
    (hloop : s.output.phase.Looping) (h : Going F s) (hstep : StageAStep c s s') :
    Going F s' := by
  unfold StageA.Stands at hstands
  cases hstep with
  | accept hphase _ =>
    exact { h with
      ended := fun _ => h.ended (by simp [hphase])
      stopped := nofun
      closed := fun hclosed => by
        have hstopped := (h.closed hclosed).2.2
        rw [hphase] at hstopped
        cases hstopped }
  | recvResult hphase _ hopen _ =>
    exact { h with
      ended := fun _ => h.ended (by simp [hphase])
      closedA := fun hclosed => by
        have hclosed' : s.stageA.closed = true := hclosed
        rw [hopen] at hclosed'
        cases hclosed' }
  | recvErr hphase _ hopen _ =>
    exact { h with
      ended := fun _ => h.ended (by simp [hphase])
      closedA := fun hclosed => by
        have hclosed' : s.stageA.closed = true := hclosed
        rw [hopen] at hclosed'
        cases hclosed'
      stopped := nofun
      closed := fun hclosed => by
        have hstopped := (h.closed hclosed).2.2
        rw [hphase] at hstopped
        cases hstopped }
  | workersDone hphase _ _ hresult hstopped =>
    have hopen : s.stageA.phase ≠ .stopped := by simp [hphase]
    have hreturned : s.dispatcher.Returned := by
      by_contra hrunning
      exact (hlive.fed hopen).running hrunning ⟨0, hn⟩ (hstopped _)
    exact { h with closedA := fun _ => ⟨hstopped, hresult, h.ended hopen hreturned⟩ }
  | finish hphase hnext hclosed =>
    obtain ⟨hstopped, hresult, hended⟩ := h.closedA hclosed
    have hopen : s.stageA.phase ≠ .stopped := by simp [hphase]
    have hall : s.dispatcher.put ≤ s.stageA.nextId := by
      by_contra hlt
      have hposition : s.stageA.position = s.stageA.nextId := by rw [StageA.position, hphase]
      rcases hlive.upstream (by rw [hphase]; trivial) s.stageA.nextId hposition.le (by omega) with
        hcarries | ⟨d, hd, hid⟩
      · exact (hlive.fed hopen).not_carries hn hstopped hresult hcarries
      · exact Reorder.remove_eq_none hnext d hd hid
    exact { h with
      ended := fun hopen' => absurd rfl hopen'
      stopped := fun _ => Or.inr (Or.inr ⟨hended, hall⟩)
      closed := fun hclosed => by
        obtain ⟨hresolvers, houtput, -⟩ := h.closed hclosed
        exact ⟨hresolvers, houtput, rfl⟩ }
  | @sendJob job hphase _ _ =>
    rw [hphase] at hstands
    obtain ⟨before, r, hchain, hlength, rfl, -⟩ := hstands
    refine { h with
      ended := fun _ => h.ended (by simp [hphase])
      stopped := fun hstopped => Or.inr (Or.inl ⟨before ++ [r], hchain, ?_, by simp [hlength]⟩)
      closed := fun hclosed => ?_ }
    · cases hfinal : r.finalBlock with
      | true =>
        intro hopen
        have hfinal' := hopen r (by simp)
        rw [hfinal] at hfinal'
        cases hfinal'
      | false =>
        simp only [jobAt, hfinal, Bool.false_eq_true, if_false] at hstopped
        cases hstopped
    · have hstopped := (h.closed hclosed).2.2
      rw [hphase] at hstopped
      cases hstopped
  | jobLost hphase hstopped =>
    exact absurd (hstopped ⟨0, c.resolveThreads_pos⟩)
      (hlive.drained.running (by simp [hphase]) _)
  | sendErr hphase _ _ =>
    exact { h with
      ended := fun hopen => absurd rfl hopen
      stopped := fun _ => Or.inl (Pool.carries_emit (by simp))
      closed := fun hclosed => by
        have hstopped := (h.closed hclosed).2.2
        rw [hphase] at hstopped
        cases hstopped }
  | errLost _ hclosed => exact absurd hloop.listening hclosed

/-- Putting a token back closes nothing. -/
@[simp]
theorem Output.afterToken_closed (out : Output) (sinkOk final : Bool) :
    (out.afterToken sinkOk final).closed = out.closed := by
  cases sinkOk <;> rfl

/-- The output stage keeps the account of why threads have stopped. -/
theorem OutputStep.going (h : s.output.phase.Looping → Going F s) (hstep : OutputStep c s s')
    (hloop : s'.output.phase.Looping) : Going F s' := by
  cases hstep with
  | take hphase _ _ => exact { h (by rw [hphase]; trivial) with }
  | @recvDone d rest hphase _ hopen hdone =>
    have hgoing := h (by rw [hphase]; trivial)
    refine { hgoing with
      stopped := fun hstopped => (hgoing.stopped hstopped).imp (fun herror => ?_) id
      closed := fun hclosed => ?_ }
    · exact (Pool.Carries.leave herror hdone).resolve_left fun h => h d rfl
    · have hclosed' : s.output.closed = true := hclosed
      rw [hopen] at hclosed'
      cases hclosed'
  | resolversDone hphase _ _ hdone hstageA hresolvers =>
    exact { h (by rw [hphase]; trivial) with closed := fun _ => ⟨hresolvers, hdone, hstageA⟩ }
  | deliver hphase _ => exact { h (by rw [hphase]; trivial) with }
  | sinkClosed hphase _ => exact { h (by rw [hphase]; trivial) with }
  | sendToken hphase _ _ =>
    have hgoing := h (by rw [hphase]; trivial)
    exact { hgoing with closed := fun hclosed => hgoing.closed (by simpa using hclosed) }
  | tokenLost hphase _ =>
    have hgoing := h (by rw [hphase]; trivial)
    exact { hgoing with closed := fun hclosed => hgoing.closed (by simpa using hclosed) }
  | reject _ _ _ => exact hloop.elim
  | finish _ _ _ => exact hloop.elim
  | recvErr _ _ _ _ => exact hloop.elim
  | teardown _ => exact hloop.elim
  | dropTokenTx _ => exact hloop.elim
  | dropDoneRx _ => exact hloop.elim
  | join _ _ _ _ _ => exact hloop.elim

/-- Every step keeps the account of why threads have stopped. -/
theorem Reads.going (hn : 0 < c.numThreads) (hfind : Answers c.find) (hnumbered : Numbered s)
    (hcourse : s.dispatcher.OnCourse c) (hlive : s.output.phase.Looping → Live s)
    (hstands : s.stageA.Stands c) (h : s.output.phase.Looping → Going F s) (hstep : Reads c F s s')
    (hloop : s'.output.phase.Looping) : Going F s' := by
  obtain ⟨hstep, hF⟩ := hstep
  cases hstep with
  | dispatch hstep =>
    have hsame : s'.output = s.output := by cases hstep <;> rfl
    have hloop' : s.output.phase.Looping := hsame ▸ hloop
    exact hstep.going hn hfind hnumbered hcourse (hlive hloop') (h hloop') hF
  | work hworkers =>
    have hgoing := h hloop
    exact { hgoing with
      closedA := fun hclosed => absurd hworkers (not_step_of_stopped (hgoing.closedA hclosed).1) }
  | stageA hstep =>
    have hsame : s'.output = s.output := by cases hstep <;> rfl
    have hloop' : s.output.phase.Looping := hsame ▸ hloop
    exact hstep.going hn (hlive hloop') hstands hloop' (h hloop')
  | resolve hresolvers =>
    have hgoing := h hloop
    exact { hgoing with
      stopped := fun hstopped => (hgoing.stopped hstopped).imp
        (hresolvers.carries hloop.listening (by simp)) id
      closed := fun hclosed => absurd hresolvers (not_step_of_stopped (hgoing.closed hclosed).1) }
  | output hstep => exact hstep.going h hloop

end Going

end Streaming

end Pipeline

end RustyRapidgzip
