import RustyRapidgzip.Pipeline.Bgzf

/-!
# The batches of a BGZF file

No batch is lost and none is sent twice: a batch that has not been sent is still with dispatch,
with the workers, on its way to the serializer or in its map. The serializer sends the batches
in order, and when its loop ends by itself it has sent all of them.
-/

namespace RustyRapidgzip

open Crc Threads Transition

namespace Pipeline

namespace Bgzf

/-- A batch decodes to these bytes. -/
def Decoded (c : Config) (b : Batch) (bytes : List UInt8) : Prop :=
  decodeBatch c.crc c.file b = .ok (b.id, bytes)

/-- The batches before the next one have been sent. -/
structure Serializer.Sent (c : Config) (received : List (List UInt8)) (extra : ℕ)
    (ser : Serializer) : Prop where
  le : ser.nextId ≤ c.batches.length
  decoded : List.Forall₂ (Decoded c) (c.batches.take ser.nextId) received
  total_eq : ser.totalUncompressed = received.flatten.length + extra
  chunks_eq : ser.chunksSent = received.length
  lastErr_eq : ser.lastErr = none

/-- The serializer left its loop because of a batch that does not decode, or of the sink. -/
def State.Failed {c : Config} (s : State c) : Prop :=
  (∃ b ∈ c.batches, ∃ e, decodeBatch c.crc c.file b = .error e ∧ s.serializer.lastErr = some e) ∨
    (s.sink.isOpen = false ∧ s.serializer.lastErr = some sinkClosedError)

/-- The serializer has sent all batches, and the threads have stopped by themselves. -/
structure State.Done {c : Config} (s : State c) : Prop where
  sent : s.serializer.Sent c s.sink.received 0
  all : s.serializer.nextId = c.batches.length
  feeder : s.front.feeder = .stopped []
  workers : s.front.pool.Stopped

/-- Where the serializer stands. -/
def State.Stands {c : Config} (s : State c) : Prop :=
  match s.serializer.phase with
  | .drain => s.serializer.Sent c s.sink.received 0
  | .deliver bytes => s.serializer.Sent c s.sink.received bytes.length ∧
      s.serializer.nextId < s.front.admitted ∧
      ∃ b, c.batches[s.serializer.nextId]? = some b ∧ Decoded c b bytes
  | _ => s.Failed ∨ s.Done

/-- The serializer is in its loop. -/
def SerializerPhase.Looping : SerializerPhase → Prop
  | .drain | .deliver _ => True
  | _ => False

/-- The batch that the serializer waits for. -/
def Serializer.position (ser : Serializer) : ℕ :=
  match ser.phase with
  | .deliver _ => ser.nextId + 1
  | _ => ser.nextId

/-- A batch is on its way to the serializer. -/
def State.Carries {c : Config} (s : State c) (b : Batch) : Prop :=
  s.front.Carries (· = b) (c.work b) ∨ ∃ p ∈ s.serializer.pending, p.1 = b.id

/-- What holds while the serializer is in its loop: no batch is lost. -/
structure Live {c : Config} (s : State c) : Prop where
  slots_open : s.front.slots.Open
  counts : s.front.slots.Counts s.front.admitted s.serializer.nextId
  complete : s.front.Complete
  carried : ∀ i b, s.serializer.position ≤ i → c.batches[i]? = some b → s.Carries b

/-- The invariant of the threads. -/
structure Inv {c : Config} (s : State c) : Prop where
  tracks : s.front.Tracks c.work c.batches
  pending : ∀ p ∈ s.serializer.pending, ∃ b ∈ c.batches.take s.front.admitted,
    decodeBatch c.crc c.file b = .ok p
  stands : s.Stands
  live : s.serializer.phase.Looping → Live s

section Invariant

variable {c : Config} {s s' : State c}

/-- The channels have room. -/
theorem Config.capacity_pos : 0 < c.capacity := Nat.mul_pos c.numThreads_pos Nat.two_pos

/-- A batch stands at the place of its number. -/
theorem Config.batches_id (i : ℕ) (b : Batch) (h : c.batches[i]? = some b) : b.id = i :=
  (walk_ranges c.file c.chunkSizeBytes).1.batches i b h

/-- A batch is found under its number. -/
theorem Config.getElem?_of_mem {b : Batch} (h : b ∈ c.batches) : c.batches[b.id]? = some b := by
  obtain ⟨i, hi⟩ := List.mem_iff_getElem?.mp h
  rwa [c.batches_id i b hi]

/-- The first batches have the first numbers. -/
theorem Config.id_lt_of_mem_take {b : Batch} {n : ℕ} (h : b ∈ c.batches.take n) : b.id < n := by
  obtain ⟨i, hi⟩ := List.mem_iff_getElem?.mp h
  have hlt : i < n := by
    have := (List.getElem?_eq_some_iff.mp hi).1
    rw [List.length_take] at this
    omega
  rw [List.getElem?_take_of_lt hlt] at hi
  rwa [c.batches_id i b hi]

/-- The later batches have later numbers. -/
theorem Config.le_id_of_mem_drop {b : Batch} {n : ℕ} (h : b ∈ c.batches.drop n) : n ≤ b.id := by
  obtain ⟨i, hi⟩ := List.mem_iff_getElem?.mp h
  rw [List.getElem?_drop] at hi
  rw [c.batches_id _ b hi]
  exact Nat.le_add_right n i

/-- A result has the number of its batch. -/
theorem decodeBatch_id {crc : Checksum} {file : List UInt8} {b : Batch} {p : ℕ × List UInt8}
    (h : decodeBatch crc file b = .ok p) : p.1 = b.id := by
  unfold decodeBatch at h
  split at h
  · cases h
  · cases h
    rfl

/-- The entry that the serializer takes from its map is the next batch. -/
theorem Inv.decoded_next (hinv : Inv s) {p : ℕ × List UInt8} {rest : List (ℕ × List UInt8)}
    (hnext : Reorder.remove Prod.fst s.serializer.nextId s.serializer.pending = some (p, rest)) :
    s.serializer.nextId < s.front.admitted ∧
      ∃ b, c.batches[s.serializer.nextId]? = some b ∧ Decoded c b p.2 := by
  obtain ⟨hp, hid⟩ := Reorder.remove_eq_some hnext
  obtain ⟨b, hb, hdecode⟩ := hinv.pending p hp
  have hkey := decodeBatch_id hdecode
  have hlt := c.id_lt_of_mem_take hb
  have hget := c.getElem?_of_mem (List.mem_of_mem_take hb)
  rw [← hkey, hid] at hget hlt
  refine ⟨hlt, b, hget, ?_⟩
  rw [Decoded, hdecode, ← hkey]

/-- Sending one more batch. -/
theorem Serializer.Sent.snoc {received : List (List UInt8)} {ser : Serializer}
    {bytes : List UInt8} {b : Batch} (h : ser.Sent c received bytes.length)
    (hb : c.batches[ser.nextId]? = some b) (hdecoded : Decoded c b bytes)
    (phase : SerializerPhase) :
    Serializer.Sent c (received ++ [bytes]) 0
      { ser with
        phase := phase
        nextId := ser.nextId + 1
        chunksSent := ser.chunksSent + 1 } where
  le := (List.getElem?_eq_some_iff.mp hb).1
  decoded := by
    rw [List.take_add_one, hb]
    exact List.rel_append h.decoded (.cons hdecoded .nil)
  total_eq := by
    simp only [h.total_eq, List.flatten_append, List.flatten_singleton, List.length_append]
    omega
  chunks_eq := by simp only [h.chunks_eq, List.length_append, List.length_singleton]
  lastErr_eq := h.lastErr_eq

/-- When nothing is on its way to the serializer any more, it has sent all batches. -/
theorem Inv.all_sent (hinv : Inv s) (hphase : s.serializer.phase = .drain)
    (hnext : Reorder.remove Prod.fst s.serializer.nextId s.serializer.pending = none)
    (hresult : s.front.pool.output = []) (hstopped : s.front.pool.Stopped) :
    s.serializer.nextId = c.batches.length ∧ s.front.feeder = .stopped [] := by
  have hlive := hinv.live (by simp [hphase, SerializerPhase.Looping])
  have hsent := hinv.stands
  rw [State.Stands, hphase] at hsent
  refine ⟨Nat.le_antisymm hsent.le (Nat.le_of_not_lt fun hlt => ?_), ?_⟩
  · obtain ⟨b, hb⟩ : ∃ b, c.batches[s.serializer.nextId]? = some b :=
      ⟨_, List.getElem?_eq_getElem hlt⟩
    have hposition : s.serializer.position = s.serializer.nextId := by
      simp [Serializer.position, hphase]
    rcases hlive.carried _ b hposition.le hb with hcarries | ⟨p, hp, hid⟩
    · exact hlive.complete.not_carries c.numThreads_pos hstopped hresult hcarries
    · exact Reorder.remove_eq_none hnext p hp (by rw [hid, c.batches_id _ b hb])
  · obtain ⟨rest, hrest⟩ := not_not.mp (hlive.complete.drained ⟨0, c.numThreads_pos⟩
      (hstopped _)).2
    rw [hrest, hlive.complete.rest_eq rest hrest]

/-- While the serializer is in its loop, no thread has stopped without a reason. -/
theorem Step.live (hinv : Inv s) (h : Step c s s') (hloop : s'.serializer.phase.Looping) :
    Live s' := by
  cases h with
  | front hfront =>
    have hlive := hinv.live hloop
    exact
      { slots_open := hfront.open hlive.slots_open
        counts := hfront.counts hlive.counts
        complete := hfront.complete c.numThreads_pos trivial hlive.slots_open hlive.complete
        carried := fun i b hi hb => (hlive.carried i b hi hb).imp
          (hfront.carries trivial fun a o ha hwork => ha ▸ hwork) id }
  | @recvBatch p rest hphase hnext hresult =>
    have hlive := hinv.live hloop
    refine { hlive with
      complete := ⟨hlive.complete.drained, hlive.complete.rest_eq⟩
      carried := fun i b hi hb => ?_ }
    rcases hlive.carried i b hi hb with (hpending | hcarries) | hmem
    · exact Or.inl (Or.inl hpending)
    · rcases hcarries.leave hresult with hwork | hcarries
      · exact Or.inr ⟨p, Reorder.mem_insert_self, decodeBatch_id hwork.symm⟩
      · exact Or.inl (Or.inr hcarries)
    · exact Or.inr (Reorder.exists_mem_insert hmem)
  | take hphase hnext =>
    have hlive := hinv.live (by simp [hphase, SerializerPhase.Looping])
    refine { hlive with carried := fun i b hi hb => ?_ }
    simp only [Serializer.position] at hi
    have hposition : s.serializer.position ≤ i := by
      simp only [Serializer.position, hphase]
      omega
    have hid := c.batches_id i b hb
    exact (hlive.carried i b hposition hb).imp id fun h =>
      Reorder.exists_mem_remove hnext (by omega) h
  | deliver hphase _ =>
    have hlive := hinv.live (by simp [hphase, SerializerPhase.Looping])
    have hstands := hinv.stands
    rw [State.Stands, hphase] at hstands
    refine
      { slots_open := hlive.slots_open.release
        counts := hlive.counts.release hstands.2.1
        complete := ⟨hlive.complete.drained, hlive.complete.rest_eq⟩
        carried := fun i b hi => hlive.carried i b ?_ }
    simpa only [Serializer.position, hphase] using hi
  | recvErr _ _ _ => exact hloop.elim
  | recvEnd _ _ _ _ => exact hloop.elim
  | sinkClosed _ _ => exact hloop.elim
  | shutdown _ => exact hloop.elim
  | join _ _ => exact hloop.elim

/-- Every step keeps track of the batches, and what is pending is the result of one. -/
theorem Step.tracks (hinv : Inv s) (h : Step c s s') : s'.front.Tracks c.work c.batches ∧
    ∀ p ∈ s'.serializer.pending, ∃ b ∈ c.batches.take s'.front.admitted,
      decodeBatch c.crc c.file b = .ok p := by
  have htracks := hinv.tracks
  cases h with
  | front hfront =>
    obtain ⟨htracks', hle⟩ := hfront.tracks htracks
    refine ⟨htracks', fun p hp => ?_⟩
    obtain ⟨b, hb, hdecode⟩ := hinv.pending p hp
    exact ⟨b, (List.take_prefix_take_left hle).subset hb, hdecode⟩
  | recvBatch _ _ hresult =>
    obtain ⟨⟨b, hb, hwork⟩, hleave⟩ := htracks.every.leave hresult
    refine ⟨⟨htracks.at_items, hleave⟩, fun p' hp' => ?_⟩
    rcases Reorder.mem_of_mem_insert hp' with rfl | hp'
    · exact ⟨b, hb, hwork.symm⟩
    · exact hinv.pending p' hp'
  | recvErr _ _ hresult =>
    exact ⟨⟨htracks.at_items, (htracks.every.leave hresult).2⟩, hinv.pending⟩
  | take _ hnext =>
    exact ⟨htracks, fun p hp => hinv.pending p (Reorder.mem_of_mem_remove hnext hp)⟩
  | deliver _ _ => exact ⟨⟨htracks.at_items, htracks.every⟩, hinv.pending⟩
  | sinkClosed _ _ => exact ⟨⟨htracks.at_items, htracks.every⟩, hinv.pending⟩
  | shutdown _ => exact ⟨⟨htracks.at_items, htracks.every⟩, hinv.pending⟩
  | recvEnd _ _ _ _ => exact ⟨htracks, hinv.pending⟩
  | join _ _ => exact ⟨htracks, hinv.pending⟩

/-- Where all is done the front has finished. -/
theorem State.Done.finished (h : s.Done) : s.front.Finished := ⟨⟨[], h.feeder⟩, h.workers⟩

/-- A failure stays one while its error is kept. -/
theorem State.Failed.of_eq (h : s.Failed) (hlastErr : s'.serializer.lastErr = s.serializer.lastErr)
    (hsink : s.sink.isOpen = false → s'.sink.isOpen = false) : s'.Failed := by
  rw [State.Failed, hlastErr]
  exact h.imp id (And.imp_left hsink)

/-- Every step keeps the account of the serializer. -/
theorem Step.stands (hinv : Inv s) (h : Step c s s') : s'.Stands := by
  have hstands := hinv.stands
  cases h with
  | front hfront =>
    have hle := (hfront.tracks hinv.tracks).2
    unfold State.Stands at hstands ⊢
    simp only
    cases hphase : s.serializer.phase with
    | drain =>
      rw [hphase] at hstands
      exact hstands
    | deliver bytes =>
      rw [hphase] at hstands
      exact ⟨hstands.1, Nat.lt_of_lt_of_le hstands.2.1 hle, hstands.2.2⟩
    | _ =>
      rw [hphase] at hstands
      exact hstands.imp (fun h => h.of_eq rfl id) fun h => absurd hfront h.finished.not_step
  | recvBatch hphase _ _ =>
    rw [State.Stands, hphase] at hstands
    rw [State.Stands]
    simp only [hphase]
    exact { hstands with }
  | @recvErr e rest hphase _ hresult =>
    obtain ⟨⟨b, hb, hwork⟩, -⟩ := hinv.tracks.every.leave hresult
    exact Or.inl (Or.inl ⟨b, List.mem_of_mem_take hb, e, hwork.symm, rfl⟩)
  | recvEnd hphase hnext hresult hstopped =>
    obtain ⟨hall, hfeeder⟩ := hinv.all_sent hphase hnext hresult hstopped
    rw [State.Stands, hphase] at hstands
    exact Or.inr ⟨{ hstands with }, hall, hfeeder, hstopped⟩
  | @take p rest hphase hnext =>
    rw [State.Stands, hphase] at hstands
    obtain ⟨hlt, hdecoded⟩ := hinv.decoded_next hnext
    have htotal := hstands.total_eq
    exact ⟨{ hstands with total_eq := by simp only; omega }, hlt, hdecoded⟩
  | deliver hphase _ =>
    rw [State.Stands, hphase] at hstands
    obtain ⟨hsent, -, b, hb, hdecoded⟩ := hstands
    exact hsent.snoc hb hdecoded _
  | sinkClosed _ hsink => exact Or.inl (Or.inr ⟨hsink, rfl⟩)
  | shutdown hphase =>
    rw [State.Stands, hphase] at hstands
    exact hstands.imp (fun h => h.of_eq rfl id) fun h =>
      ⟨{ h.sent with }, h.all, h.feeder, h.workers⟩
  | join hphase _ =>
    rw [State.Stands, hphase] at hstands
    exact hstands.imp (fun h => h.of_eq rfl id) fun h =>
      ⟨{ h.sent with }, h.all, h.feeder, h.workers⟩

/-- Every step keeps the invariant. -/
theorem Step.inv (hinv : Inv s) (h : Step c s s') : Inv s' :=
  ⟨(h.tracks hinv).1, (h.tracks hinv).2, h.stands hinv, h.live hinv⟩

/-- A consumer that hangs up keeps the invariant. -/
theorem Hangup.inv (hinv : Inv s) (h : Hangup c s s') : Inv s' := by
  cases h
  refine ⟨hinv.tracks, hinv.pending, ?_, fun hloop => { hinv.live hloop with }⟩
  have hstands := hinv.stands
  unfold State.Stands at hstands ⊢
  simp only
  cases hphase : s.serializer.phase with
  | drain =>
    rw [hphase] at hstands
    exact hstands
  | deliver bytes =>
    rw [hphase] at hstands
    exact hstands
  | _ =>
    rw [hphase] at hstands
    exact hstands.imp (fun h => h.of_eq rfl fun _ => rfl) fun h => { h with }

/-- The invariant holds at the start. -/
theorem inv_init (c : Config) : Inv (init c) where
  tracks := Front.tracks_start
  pending := by simp [init]
  stands := ⟨Nat.zero_le _, .nil, rfl, rfl, rfl⟩
  live _ :=
    { slots_open := by
        intro g hg
        obtain ⟨max, -, rfl⟩ := Option.map_eq_some_iff.mp hg
        rfl
      counts := by
        intro g hg
        obtain ⟨max, -, rfl⟩ := Option.map_eq_some_iff.mp hg
        exact ⟨rfl, Nat.zero_le _, Nat.lt_of_lt_of_le Nat.one_pos (Nat.le_max_right _ _)⟩
      complete := Front.complete_start
      carried := fun i b _ hb => Or.inl (Or.inl ⟨b, List.mem_of_getElem? hb, rfl⟩) }

/-- A run of the threads and of the consumer. -/
def Move (c : Config) (s s' : State c) : Prop := Step c s s' ∨ Hangup c s s'

/-- The invariant holds in every state, whatever the consumer does. -/
theorem inv_of_reaches (h : Reaches (Move c) (init c) s) : Inv s :=
  h.invariant Inv (fun _ _ hinv hmove => hmove.elim (Step.inv hinv) (Hangup.inv hinv)) (inv_init c)

/-- The invariant holds in every state of a run whose consumer listens. -/
theorem inv_of_reaches_step (h : Reaches (Step c) (init c) s) : Inv s :=
  h.invariant Inv (fun _ _ => Step.inv) (inv_init c)

/-- A consumer that listens keeps its end open. -/
theorem sinkOpen_of_reaches (h : Reaches (Step c) (init c) s) : s.sink.isOpen = true := by
  refine h.invariant (fun s => s.sink.isOpen = true) (fun s s' hopen hstep => ?_) rfl
  cases hstep <;> exact hopen

end Invariant

end Bgzf

end Pipeline

end RustyRapidgzip
