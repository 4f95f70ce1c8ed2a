import RustyRapidgzip.Deflate.HandOff
import RustyRapidgzip.Pipeline.Parallel

/-!
# Calls with a worker that overruns

A worker that runs off the vector of its chunk may hand on anything. So a call whose only item
makes its worker overrun has runs that return any error, and runs that return whatever result the
item is said to have. A file of two valid members is such a call.
-/

namespace RustyRapidgzip

open LsbBits Reference Lz Crc Stop Threads Transition

namespace Pipeline

namespace Mmap

/-! ## Calls with one item -/

section Lone

variable {c : Config} {rs : List WorkResult} {w : WorkResult} {d : ResolveDone} {e : Error}

/-- A call with one item, which decodes to one result only. The result ends the body, resolves
and passes its checks. -/
structure Lone (c : Config) (w : WorkResult) (d : ResolveDone) : Prop where
  items : c.items.length = 1
  decodes : ∀ item r, c.items[0]? = some item → c.decode (chainItem [] item.endBitHint) r →
    r = .ok w
  final : w.finalBlock = true
  job : resolveJob c.crc (jobAt [] w) = .ok d
  checks : ∃ m, stitchAll c.crc [d] = .ok m
  consumed : ∃ mb, w.memberBoundaries.getLast? = some mb

/-- With one item, only the empty chain goes on. -/
theorem eq_nil_of_getElem? {item : WorkItem} (hitems : c.items.length = 1)
    (hitem : c.items[rs.length]? = some item) : rs = [] := by
  have hlt := (List.getElem?_eq_some_iff.mp hitem).1
  exact List.length_eq_zero_iff.mp (by omega)

/-- The chunk is the only chain. -/
theorem Lone.chain (h : Lone c w d) (hchain : Chain c rs) : rs = [] ∨ rs = [w] := by
  cases hchain with
  | nil => exact Or.inl rfl
  | snoc _ _ hitem hdecode =>
    obtain rfl := eq_nil_of_getElem? h.items hitem
    cases h.decodes _ _ hitem hdecode
    exact Or.inr rfl

/-- The only chunk of a chain is the one that the worker made. -/
theorem Lone.chain_snoc (h : Lone c w d) {r : WorkResult} (hchain : Chain c (rs ++ [r])) :
    rs = [] ∧ r = w := by
  rcases h.chain hchain with hnil | hone
  · simp at hnil
  · obtain ⟨rfl, hr⟩ := List.append_inj' (hone.trans (List.nil_append _).symm) rfl
    exact ⟨rfl, (List.cons.inj hr).1⟩

/-- The chunk resolves to what the resolver made. -/
theorem Lone.resolves (h : Lone c w d) : Resolves c [w] [d] :=
  @Resolves.snoc _ [] [] _ _ .nil h.job

/-- Such a call has no cause to fail. -/
theorem Lone.not_fails (h : Lone c w d) : ¬Fails c e := by
  intro hfails
  cases hfails with
  | decode _ _ hitem hdecode =>
    obtain rfl := eq_nil_of_getElem? h.items hitem
    cases h.decodes _ _ hitem hdecode
  | resolve hchain hresolve =>
    obtain ⟨rfl, rfl⟩ := h.chain_snoc hchain
    rw [h.job] at hresolve
    cases hresolve
  | stitch hchain hresolves hstitch =>
    rcases h.chain hchain with rfl | rfl
    · cases hresolves.unique .nil
      cases hstitch
    · obtain ⟨m, hm⟩ := h.checks
      rw [hresolves.unique h.resolves, hm] at hstitch
      cases hstitch
  | unfinished hchain hlen hopen =>
    rcases h.chain hchain with rfl | rfl
    · rw [h.items] at hlen
      cases hlen
    · have hfalse := hopen w List.mem_cons_self
      rw [h.final] at hfalse
      cases hfalse
  | noTrailer hchain _ hnone =>
    obtain ⟨-, rfl⟩ := h.chain_snoc hchain
    obtain ⟨mb, hlast⟩ := h.consumed
    rw [hnone] at hlast
    cases hlast

/-- Every run of such a call accepts the chunk. -/
theorem Lone.returned (h : Lone c w d) {s : State c} (hreach : Reaches (Step c) (init c) s)
    {res : Except Error (ℕ × ℕ × ℕ × ℕ)} (hreturned : s.Returned res) :
    s.stageA.accepted = [w] ∧ s.sink.received = [d.chunk.bytes] ∧
      ∃ res', s.Returned (.ok res') := by
  rcases (inv_of_reaches_step hreach).returned (sinkClosed_of_reaches hreach).2 hreturned with
    ⟨rs, r, ds, bc, n, haccepted, hsucceeds, hreceived, rfl⟩ | ⟨e, -, hfails⟩
  · obtain ⟨rfl, rfl⟩ := h.chain_snoc hsucceeds.chain
    rw [hsucceeds.resolves.unique h.resolves] at hreceived
    exact ⟨haccepted, hreceived, _, hreturned⟩
  · exact absurd hfails h.not_fails

end Lone

/-! ## Calls with fewer results -/

section Choose

variable {c : Config} {decode : WorkItem → Except Error WorkResult → Prop}
  {htotal : ∀ item, ∃ r, decode item r} {hsome : ∀ item r, decode item r → c.decode item r}

/-- A call whose workers give only some of the results that those of another one may give. -/
def Config.choose (c : Config) (decode : WorkItem → Except Error WorkResult → Prop)
    (htotal : ∀ item, ∃ r, decode item r)
    (hsome : ∀ item r, decode item r → c.decode item r) : Config where
  crc := c.crc
  bodyLen := c.bodyLen
  items := c.items
  items_id := c.items_id
  decode := decode
  decode_total := htotal
  decode_id item _ h := c.decode_id item _ (hsome item _ h)
  numThreads := c.numThreads
  two_le_numThreads := c.two_le_numThreads
  resolveThreads := c.resolveThreads
  resolveThreads_pos := c.resolveThreads_pos
  maxInFlight := c.maxInFlight

/-- A state of such a call, as one of the other call. -/
def State.chosen (s : State (c.choose decode htotal hsome)) : State c :=
  ⟨s.front, s.stageA, s.resolvers, s.output, s.sink⟩

/-- What stage A goes on with is a choice of the other call, too. -/
theorem Config.Checks.chosen {start again : ℕ} {o : WorkOutcome} {r : Except Error WorkResult}
    (h : (c.choose decode htotal hsome).Checks start o r again) : c.Checks start o r again := by
  rcases h with hfirst | ⟨hwrong, hdecode, hagain⟩
  · exact Or.inl hfirst
  · exact Or.inr ⟨hwrong, hsome _ _ hdecode, hagain⟩

/-- A step of such a call is a step of the other one. -/
theorem Step.chosen {s s' : State (c.choose decode htotal hsome)} (h : Step _ s s') :
    Step c s.chosen s'.chosen := by
  cases h with
  | front hfront =>
    refine .front (hfront.mono ?_)
    rintro item o ⟨r, hdecode, ho⟩
    exact ⟨r, hsome _ _ hdecode, ho⟩
  | accept hphase hnext hchecks => exact .accept hphase hnext hchecks.chosen
  | refuse hphase hnext hchecks => exact .refuse hphase hnext hchecks.chosen
  | recvOutcome hphase hnext hresult => exact .recvOutcome hphase hnext hresult
  | workerClosed hphase hnext hresult hstopped =>
    exact .workerClosed hphase hnext hresult hstopped
  | sendJob hphase hlistening hroom => exact .sendJob hphase hlistening hroom
  | jobLost hphase hstopped => exact .jobLost hphase hstopped
  | sendErr hphase hlistening hroom => exact .sendErr hphase hlistening hroom
  | errLost hphase hclosed => exact .errLost hphase hclosed
  | resolve hresolvers => exact .resolve hresolvers
  | take hphase hnext hstitch => exact .take hphase hnext hstitch
  | reject hphase hnext hstitch => exact .reject hphase hnext hstitch
  | finish hphase hnext hend => exact .finish hphase hnext hend
  | recvDone hphase hnext hmore hdone => exact .recvDone hphase hnext hmore hdone
  | recvErr hphase hnext hmore hdone => exact .recvErr hphase hnext hmore hdone
  | resolveClosed hphase hnext hmore hdone hstageA hresolvers =>
    exact .resolveClosed hphase hnext hmore hdone hstageA hresolvers
  | deliver hphase hsink => exact .deliver hphase hsink
  | sinkClosed hphase hsink => exact .sinkClosed hphase hsink
  | dropDone hphase => exact .dropDone hphase
  | shutdown hphase => exact .shutdown hphase
  | join hphase hstageA hresolvers hfront => exact .join hphase hstageA hresolvers hfront

/-- A run of such a call is a run of the other one. -/
theorem reaches_chosen {s : State (c.choose decode htotal hsome)}
    (h : Reaches (Step _) (init _) s) : Reaches (Step c) (init c) s.chosen := by
  induction h with
  | refl => exact .refl
  | tail _ hstep ih => exact ih.tail hstep.chosen

/-- After the call has returned, it has returned the same. -/
theorem State.Returned.of_reaches {s s' : State c} {r : Except Error (ℕ × ℕ × ℕ × ℕ)}
    (h : s.Returned r) (hreach : Reaches (Step c) s s') : s'.Returned r := by
  refine hreach.invariant (fun s => s.Returned r) (fun s s' hs hstep => ?_) h
  have hphase : s.output.phase = .returned r := hs
  cases hstep with
  | take hdrain _ _ => simp [hphase] at hdrain
  | reject hdrain _ _ => simp [hphase] at hdrain
  | finish hdrain _ _ => simp [hphase] at hdrain
  | recvDone hdrain _ _ _ => simp [hphase] at hdrain
  | recvErr hdrain _ _ _ => simp [hphase] at hdrain
  | resolveClosed hdrain _ _ _ _ _ => simp [hphase] at hdrain
  | deliver hdeliver _ => simp [hphase] at hdeliver
  | sinkClosed hdeliver _ => simp [hphase] at hdeliver
  | dropDone hleave => simp [hphase] at hleave
  | shutdown hclosing => simp [hphase] at hclosing
  | join hjoining _ _ _ => simp [hphase] at hjoining
  | _ => exact hs

/-- A run that has returned an error shows that returning a result is not inevitable. -/
theorem State.Returned.not_inevitable {s : State c} {e : Error}
    {Goal : State c → Prop} (h : s.Returned (.error e)) (hreach : Reaches (Step c) (init c) s)
    (hgoal : ∀ s, Goal s → ∃ res, s.Returned (.ok res)) : ¬Inevitable (Step c) Goal (init c) := by
  intro hall
  obtain ⟨t, ht, hbeside⟩ := hall.exists_beside hreach
  obtain ⟨res, hres⟩ := hgoal t ht
  have hboth : ∃ s : State c, s.Returned (.error e) ∧ s.Returned (.ok res) := by
    rcases hbeside with hbefore | hbehind
    · exact ⟨s, h, hres.of_reaches hbefore⟩
    · exact ⟨t, h.of_reaches hbehind, hres⟩
  obtain ⟨s, herr, hok⟩ := hboth
  rw [State.Returned, herr] at hok
  cases hok

end Choose

/-! ## One item that overruns -/

section Fault

variable {build : Build} {crc : Checksum} {body : List UInt8} {t : ThreadConfig} {bad : WorkItem}
  {r : Except Error WorkResult}

/-- A worker of the body overruns on an item. -/
def Overruns (build : Build) (body : List UInt8) (item : WorkItem) : Prop :=
  ∃ capacity scratch, decodeOneChunk build capacity body scratch item = .error .fault

/-- The results of the workers, where one of them overruns and hands this one on. -/
def Forged (build : Build) (body : List UInt8) (bad : WorkItem) (r : Except Error WorkResult)
    (item : WorkItem) (r' : Except Error WorkResult) : Prop :=
  if item = bad then r' = r else Decodes build body item r'

/-- A worker with a forged result makes something of every item. -/
theorem Forged.total (item : WorkItem) : ∃ r', Forged build body bad r item r' := by
  by_cases hbad : item = bad
  · exact ⟨r, by rw [Forged, if_pos hbad]⟩
  · obtain ⟨r', hr'⟩ := Decodes.total build body item
    exact ⟨r', by rwa [Forged, if_neg hbad]⟩

/-- A worker that overruns may hand on the result. -/
theorem Forged.decodes (hover : Overruns build body bad) (hid : ∀ w, r = .ok w → w.id = bad.id)
    {item : WorkItem} {r' : Except Error WorkResult} (h : Forged build body bad r item r') :
    Decodes build body item r' := by
  unfold Forged at h
  by_cases hbad : item = bad
  · rw [if_pos hbad] at h
    subst hbad h
    exact Or.inr ⟨hover, hid⟩
  · rwa [if_neg hbad] at h

/-- The forged item has the forged result. -/
theorem Forged.eq {r' : Except Error WorkResult} (h : Forged build body bad r bad r') :
    r' = r := by
  rwa [Forged, if_pos rfl] at h

/-- The only item of a call gives the result that its worker hands on. -/
theorem Forged.eq_of_single {rs : List WorkResult} {item : WorkItem}
    {r' : Except Error WorkResult} (hitem : (workItems body [0])[rs.length]? = some item)
    (h : Forged build body ⟨0, 0, noHint body⟩ r (chainItem rs item.endBitHint) r') : r' = r := by
  obtain ⟨rfl, hhint⟩ := single_item hitem
  rw [hhint] at h
  exact h.eq

/-- The call in which that worker hands on the result. -/
def forgedConfig (crc : Checksum) (boundaries : List ℕ) (t : ThreadConfig)
    (hover : Overruns build body bad) (hid : ∀ w, r = .ok w → w.id = bad.id) : Config :=
  (memberConfig build crc body boundaries t).choose (Forged build body bad r) Forged.total
    fun _ _ h => h.decodes hover hid

/-- If the worker of the only item overruns, the call may return any error. -/
theorem exists_returned_error (crc : Checksum) (t : ThreadConfig)
    (hover : Overruns build body ⟨0, 0, noHint body⟩) (e : Error) :
    ∃ s, Reaches (Step (memberConfig build crc body [0] t)) (init _) s ∧
      s.Returned (.error e) := by
  let c := forgedConfig crc [0] t hover (r := .error e) nofun
  have hchain {rs : List WorkResult} (h : Chain c rs) : rs = [] := by
    cases h with
    | nil => rfl
    | snoc _ _ hitem hdecode => cases Forged.eq_of_single hitem hdecode
  obtain ⟨s, hreach, -, res, hreturned⟩ := (inevitable_returned c).exists_reaches
  refine ⟨s.chosen, reaches_chosen hreach, ?_⟩
  rcases (inv_of_reaches_step hreach).returned (sinkClosed_of_reaches hreach).2 hreturned with
    ⟨rs, r, ds, bc, n, -, hsucceeds, -, -⟩ | ⟨e', rfl, hfails⟩
  · simpa using hchain hsucceeds.chain
  cases hfails with
  | decode _ _ hitem hdecode =>
    cases Forged.eq_of_single hitem hdecode
    exact hreturned
  | resolve hchain' _ => simpa using hchain hchain'
  | stitch hchain' hresolves hstitch =>
    obtain rfl := hchain hchain'
    cases hresolves.unique .nil
    cases hstitch
  | unfinished hchain' hlen _ =>
    obtain rfl := hchain hchain'
    cases hlen
  | noTrailer hchain' _ _ => simpa using hchain hchain'

/-- If the worker of the only item overruns, the call may accept any chunk that ends the body,
resolves and passes its checks. -/
theorem exists_returned_ok {w : WorkResult} {d : ResolveDone} {m : OpenMember}
    {mb : MemberBoundary} (t : ThreadConfig) (hover : Overruns build body ⟨0, 0, noHint body⟩)
    (hid : w.id = 0) (hfinal : w.finalBlock = true)
    (hjob : resolveJob crc (jobAt [] w) = .ok d) (hstitch : stitchAll crc [d] = .ok m)
    (hlast : w.memberBoundaries.getLast? = some mb) :
    ∃ s, Reaches (Step (memberConfig build crc body [0] t)) (init _) s ∧
      s.stageA.accepted = [w] ∧ ∃ res, s.Returned (.ok res) := by
  have hforged : ∀ w', (.ok w : Except Error WorkResult) = .ok w' →
      w'.id = (⟨0, 0, noHint body⟩ : WorkItem).id := by
    rintro _ ⟨⟩
    exact hid
  let c := forgedConfig crc [0] t hover hforged
  have hlone : Lone c w d :=
    { items := length_workItems
      decodes := fun _ _ hitem hdecode => @Forged.eq_of_single _ _ _ [] _ _ hitem hdecode
      final := hfinal
      job := hjob
      checks := ⟨m, hstitch⟩
      consumed := ⟨mb, hlast⟩ }
  obtain ⟨s, hreach, -, res, hreturned⟩ := (inevitable_returned c).exists_reaches
  obtain ⟨haccepted, -, hok⟩ := hlone.returned hreach hreturned
  exact ⟨s.chosen, reaches_chosen hreach, haccepted, hok⟩

end Fault

/-! ## A file with a member that overruns -/

section OverrunFile

open Preload

/-- Two members: a stored byte, and one block that expands to 4098 bytes. -/
def overrunFile : List UInt8 :=
  [0x1f, 0x8b, 8, 0, 0, 0, 0, 0, 0, 3, 1, 1, 0, 0xfe, 0xff, 65, 139, 158, 217, 211, 1, 0, 0, 0,
    0x1f, 0x8b, 8, 0, 0, 0, 0, 0, 0, 3] ++ overrunMember.take 30 ++
    [243, 246, 0, 18, 2, 16, 0, 0]

/-- The body of the file. -/
def overrunBody : List UInt8 := overrunFile.drop 10

/-- The second member is one block of the overrunning words. -/
theorem overrunBody_block :
    Block 48 ((bits overrunBody).drop 192) true ((overrunWords 4 shortWord).map Prod.snd)
      ((bits overrunBody).drop 432) := by
  have hheader : readHeader ((bits overrunBody).drop 192) =
      some ((1, (PreloadRoom.overrunLits, nearDists)),
        ((overrunWords 4 shortWord).map Prod.fst).flatten ++
          (endWord ++ (bits overrunBody).drop 432)) := by
    decide +kernel
  exact block_of_header hheader (body_of_words
    (forall_mem_overrunWords isWord_zeroWord isWord_longWord isWord_shortWord) isWord_endWord
    (by decide +kernel))

/-- The members of the body. -/
def overrunMembers : List (List Token × Trailer) :=
  [([Token.lit 65], ⟨3554254475, 1, 6⟩),
    ((overrunWords 4 shortWord).map Prod.snd, ⟨302053107, 4098, 54⟩)]

/-- The body has two members. -/
theorem bodyParse_overrunBody : BodyParse overrunBody 0 overrunMembers := by
  have hfirst : readStream 496 ((bits overrunBody).drop 0) =
      some ([Token.lit 65], (bits overrunBody).drop 48) := by
    decide +kernel
  have hlength : ((bits overrunBody).drop 0).length ≤ 496 := by
    rw [List.drop_zero, bits_length]
    decide +kernel
  exact .next ((readStream_iff hlength).mp hfirst) (by decide +kernel) (by decide +kernel)
    (.last ((Blocks.final overrunBody_block).mono (Nat.zero_le 48)) (by decide +kernel)
      (by decide +kernel))

/-- What the members expand to. -/
def overrunOuts : List (List UInt8 × Trailer) :=
  [([65], ⟨3554254475, 1, 6⟩), (List.replicate 4098 0, ⟨302053107, 4098, 54⟩)]

/-- The members expand to their outputs. -/
theorem expands_overrunMembers : Expands [] overrunMembers overrunOuts :=
  .cons rfl (.cons overrunMember_expand .nil)

/-- The outputs match their trailers. -/
theorem passes_overrunOuts : ∀ m ∈ overrunOuts, Passes crc32 m := by
  have hfirst : Passes crc32 ([65], ⟨3554254475, 1, 6⟩) := ⟨by decide +kernel, rfl⟩
  have hcrc : crc32.hash (List.replicate 4098 0) = 302053107 := by
    rw [show crc32.hash (List.replicate 4098 0) =
      (crc (0xEDB88320 : BitVec 32) (List.replicate 4098 0)).toNat from rfl, crc_replicate_zero]
    decide +kernel
  have hsecond : Passes crc32 (List.replicate 4098 0, ⟨302053107, 4098, 54⟩) :=
    ⟨hcrc, by rw [List.length_replicate]; rfl⟩
  rw [overrunOuts, List.forall_mem_cons, List.forall_mem_singleton]
  exact ⟨hfirst, hsecond⟩

/-- The serial decoder accepts the file, wherever it stands. -/
theorem exists_serialDecodeMember_overrunBody {input : List UInt8} {bodyOffset : ℕ}
    (hbody : input.drop bodyOffset = overrunBody) (chunkSizeBytes : ℕ) :
    ∃ total consumed chunks sent, serialDecodeMember crc32 input bodyOffset chunkSizeBytes =
      .ok ((total, consumed, chunks), sent) := by
  have houtcome := serialOutcome_serialDecodeMember crc32 input bodyOffset chunkSizeBytes
  have hmembers : BodyMembers crc32 overrunBody (overrunOuts.map Prod.fst).flatten :=
    bodyMembers_iff_membersAt.mpr
      ⟨_, _, bodyParse_overrunBody, expands_overrunMembers, passes_overrunOuts, rfl⟩
  rw [hbody] at houtcome
  cases hserial : serialDecodeMember crc32 input bodyOffset chunkSizeBytes with
  | error e =>
    rw [hserial] at houtcome
    exact absurd hmembers (houtcome.2 _)
  | ok r => exact ⟨r.1.1, r.1.2.1, r.1.2.2, r.2, rfl⟩

/-- The chunks of the body are short. -/
theorem shortChunks_overrunBody {body : List UInt8} (hbody : body = overrunBody)
    (boundaries : List ℕ) (t : ThreadConfig) :
    ShortChunks (Unbounded.memberConfig crc32 body boundaries t) := by
  subst hbody
  apply shortChunks_of_expands bodyParse_overrunBody expands_overrunMembers
  simp only [overrunOuts, List.map_cons, List.map_nil, List.flatten_cons, List.flatten_nil,
    List.length_append, List.length_replicate, List.length_cons, List.length_nil]
  decide

/-- The last copy of the second member is stored from 3841, past the 4097 bytes of the vector. -/
theorem overrunBody_run :
    withTreesAt (fun _ lit dist br =>
      ((PreloadRoom.runSteps amortized 16 lit dist 83
          (PreloadRoom.start amortized 1 8 br)).map fun t =>
        (PreloadRoom.step amortized 16 lit dist t).1) == some [⟨3841, 258, 4097⟩])
      overrunBody 192 = true := by
  decide +kernel

/-- The second member does not fit behind the byte of the first one. -/
theorem not_memberFits_overrunBody {out : OutVec} (hbytes : out.bytes = [65])
    (hcapacity : out.capacity = 8) (endBitHint : ℕ) :
    ¬MemberFits narrow16 overrunBody 192 endBitHint out := by
  obtain ⟨br, hseek, _, lit, dist, br₁, hopens, hrun⟩ := exists_of_withTreesAt overrunBody_run
  rw [beq_iff_eq] at hrun
  have hres : expand id out.bytes ((overrunWords 4 shortWord).map Prod.snd) =
      some ([65] ++ List.replicate 4098 0) := by
    have h := expand_append_left [65] overrunMember_expand
    rw [hbytes]
    rwa [List.append_nil] at h
  rw [memberFits_of_final endBitHint hseek overrunBody_block hres,
    hopens.fits_iff_neverOverruns (BitReader.at_of_seekToBit hseek).2, hbytes, hcapacity]
  exact PreloadRoom.not_neverOverruns_of_runSteps hrun (by decide)

/-- The state of the worker after the first member. -/
def afterFirst (s : ChunkState VecChunk) : Bool :=
  !s.firstMember && s.br.tellBit == 192 && s.chunk.bytes.bytes == [65] &&
    s.chunk.bytes.capacity == 8

/-- The first round of the worker decodes the stored byte. -/
theorem chunkRound_overrunBody :
    (match (BitReader.new overrunBody).seekToBit 0 with
      | .error _ => false
      | .ok br =>
        match chunkRound narrow16 8 overrunBody [] (noHint overrunBody)
          ⟨br, VecChunk.fresh (estOutput ⟨0, 0, noHint overrunBody⟩), [], true⟩ with
        | .ok (.inl s) => afterFirst s
        | _ => false) = true := by
  decide +kernel

/-- The worker of the body overruns in the second member, with a vector of eight bytes. -/
theorem decodeOneChunk_overrunBody :
    decodeOneChunk narrow16 8 overrunBody [] ⟨0, 0, noHint overrunBody⟩ = .error .fault := by
  rw [decodeOneChunk_eq_fault_iff]
  intro hfits
  have hround := chunkRound_overrunBody
  split at hround
  · cases hround
  next br hseek =>
  split at hround
  swap
  · cases hround
  next s hok =>
  simp only [afterFirst, Bool.and_eq_true, Bool.not_eq_true', beq_iff_eq] at hround
  obtain ⟨⟨⟨hfirst, htell⟩, hbytes⟩, hcapacity⟩ := hround
  have hnext := hfits br hseek s (Relation.ReflTransGen.single hok)
  rw [NextFits, hfirst, htell] at hnext
  have hpos : 192 < noHint overrunBody := Nat.lt_of_lt_of_le (by decide) (Nat.le_max_left _ _)
  exact not_memberFits_overrunBody hbytes hcapacity _ (hnext hpos)

/-- The serial decoder accepts the file. In a call with two workers the second member is stored
past the vector of its chunk, and the call need not return what the serial decoder returns: it may
return any error. -/
theorem overrunFile_fails :
    ∃ total consumed chunks sent,
      serialDecodeMember crc32 overrunFile 10 0 = .ok ((total, consumed, chunks), sent) ∧
      ShortChunks (Unbounded.memberConfig crc32 (overrunFile.drop 10) [0] twoThreads) ∧
      decodeOneChunk narrow16 8 (overrunFile.drop 10) [] ⟨0, 0, noHint (overrunFile.drop 10)⟩ =
        .error .fault ∧
      (∀ e, ∃ s, Reaches (Step (memberConfig narrow16 crc32 (overrunFile.drop 10) [0] twoThreads))
        (init _) s ∧ s.Returned (.error e)) ∧
      ¬Inevitable (Step (memberConfig narrow16 crc32 (overrunFile.drop 10) [0] twoThreads))
        (fun s => s.sink.received.flatten = sent.flatten ∧
          ∃ failures, s.Returned (.ok (total, consumed, s.sink.received.length, failures)))
        (init _) := by
  obtain ⟨total, consumed, chunks, sent, hserial⟩ :=
    @exists_serialDecodeMember_overrunBody overrunFile 10 rfl 0
  have hfails := exists_returned_error crc32 twoThreads ⟨8, [], decodeOneChunk_overrunBody⟩
  refine ⟨total, consumed, chunks, sent, hserial, shortChunks_overrunBody rfl _ _,
    decodeOneChunk_overrunBody, hfails, ?_⟩
  obtain ⟨s, hreach, hreturned⟩ := hfails (.io "")
  exact hreturned.not_inevitable hreach fun s ⟨_, failures, hok⟩ => ⟨_, hok⟩

end OverrunFile

end Mmap

end Pipeline

end RustyRapidgzip
