import RustyRapidgzip.Pipeline.StreamFlow

/-!
# What the streaming decoder sends

The output stage sends what the chunks of the chain resolve to, in order. A call that returns a
result has sent all of it; an error that it returns has a cause in the chain, in the dispatcher,
or in the reader.
-/

namespace RustyRapidgzip

open Crc Threads Transition

namespace Pipeline

namespace Streaming

/-! ## What the output stage has sent -/

/-- The output stage has taken these chunks of the chain. -/
structure Output.Holds (c : Config) (out : Output) (rs ds : List DecodeResult) : Prop where
  chain : Chain c.items rs
  resolves : Resolves rs ds
  checked : checkAll c.crc ds = .ok out.member
  totalUc_eq : out.totalUc = (sentBytes ds).flatten.length
  outErr_eq : out.outErr = none

/-- The output stage has sent all items, or as many as the dispatcher could send before it
stopped. -/
def State.Done {c : Config} (F : String → Prop) (s : State c) : Prop :=
  ∃ rs ds, s.output.Holds c rs ds ∧ s.sink.received = sentBytes ds ∧
    s.output.chunksSent = ds.length ∧
    ((rs.length = c.items.length ∧
      ∃ k sent, s.dispatcher.phase = .returned (.ok k) ∧ c.dispatched = .ok (k, sent)) ∨
      ∃ e, s.dispatcher.phase = .returned (.error e) ∧ DispatchFails c F e)

/-- The output stage has left its loop: the sink was closed, there was an error, or it was done. -/
def State.Left {c : Config} (F : String → Prop) (s : State c) : Prop :=
  s.sink.isOpen = false ∨ (∃ e, s.output.outErr = some e ∧ Fails c e) ∨ s.Done F

/-- Where the output stage stands. -/
def State.Stands {c : Config} (F : String → Prop) (s : State c) : Prop :=
  match s.output.phase with
  | .drain => ∃ rs ds, s.output.Holds c rs ds ∧ Unfinished rs ∧ s.sink.received = sentBytes ds ∧
      s.output.nextId = ds.length ∧ s.output.chunksSent = ds.length
  | .deliver bytes final => ∃ rs r ds d, s.output.Holds c (rs ++ [r]) (ds ++ [d]) ∧
      rs.length < s.dispatcher.bound c ∧ s.sink.received = sentBytes ds ∧
      s.output.nextId = ds.length ∧ s.output.chunksSent = ds.length ∧ bytes = d.chunk.bytes ∧
      final = r.finalBlock
  | .sendToken sinkOk final => (sinkOk = false ∧ s.sink.isOpen = false) ∨
      (sinkOk = true ∧ ∃ rs r ds d, s.output.Holds c (rs ++ [r]) (ds ++ [d]) ∧
        rs.length < s.dispatcher.bound c ∧ s.sink.received = sentBytes (ds ++ [d]) ∧
        s.output.nextId = ds.length ∧ s.output.chunksSent = ds.length ∧ final = r.finalBlock)
  | .returned res => s.Left F ∧ ∃ r, s.dispatcher.phase = .returned r ∧ res = s.output.result r
  | _ => s.Left F

/-- What has been sent so far belongs to a chain that has passed its checks. -/
def State.Delivered {c : Config} (s : State c) : Prop :=
  ∃ rs ds m, Chain c.items rs ∧ Resolves rs ds ∧ checkAll c.crc ds = .ok m ∧
    s.sink.received = sentBytes ds

section Output

variable {c : Config} {F : String → Prop} {s s' : State c} {rs ds : List DecodeResult}

/-- The chunk that the output stage takes from its map is the next one of the chain. -/
theorem Resolving.next (h : Resolving s) {d : DecodeResult} {rest : List DecodeResult}
    (hnext : Reorder.remove DecodeResult.id s.output.nextId s.output.reorder = some (d, rest))
    (hholds : s.output.Holds c rs ds) (hnextId : s.output.nextId = ds.length) :
    ∃ r, Chain c.items (rs ++ [r]) ∧ rs.length < s.stageA.nextId ∧
      Resolves (rs ++ [r]) (ds ++ [d]) ∧ d.finalBlock = r.finalBlock := by
  obtain ⟨hd, hid⟩ := Reorder.remove_eq_some hnext
  obtain ⟨_, ⟨before, r, hchain, hlt, rfl⟩, hjob⟩ := h.reorder d hd
  have hlength : before.length = rs.length := by
    rw [← hholds.resolves.length_eq, ← hnextId, ← hid, resolveJob_id hjob]
    rfl
  obtain rfl := (chain_snoc_iff.mp hchain).1.unique hholds.chain hlength
  exact ⟨r, hchain, hlt, .snoc hholds.resolves hjob, (resolveJob_ok hjob).1⟩

/-- When the resolve pool has come to its end, all that the dispatcher could send has been sent. -/
theorem Going.end_cases (h : Going F s) (hlive : Live s) (hphase : s.output.phase = .drain)
    (hnext : Reorder.remove DecodeResult.id s.output.nextId s.output.reorder = none)
    (hclosed : s.output.closed = true) (hholds : s.output.Holds c rs ds) (hopen : Unfinished rs)
    (hnextId : s.output.nextId = ds.length) :
    (rs.length = c.items.length ∧
      ∃ k sent, s.dispatcher.phase = .returned (.ok k) ∧ c.dispatched = .ok (k, sent)) ∨
      ∃ e, s.dispatcher.phase = .returned (.error e) ∧ DispatchFails c F e := by
  obtain ⟨hresolvers, houtput, hstageA⟩ := h.closed hclosed
  have hnone {P : ResolveJob → Prop} {Q : Except Error DecodeResult → Prop} :
      ¬s.resolvers.Carries P Q :=
    hlive.drained.not_carries c.resolveThreads_pos hresolvers houtput
  have hle : s.stageA.nextId ≤ s.output.nextId := by
    by_contra hlt
    have hposition : s.output.position = s.output.nextId := by rw [Output.position, hphase]
    rcases hlive.downstream s.output.nextId hposition.le (by omega) with hcarries | ⟨d, hd, hid⟩
    · exact hnone hcarries
    · exact Reorder.remove_eq_none hnext d hd hid
  have hlength := hholds.resolves.length_eq
  rcases h.stopped hstageA with
    herror | ⟨rs', hchain, hlast, hlength'⟩ | ⟨⟨r, hr, hreason⟩, hput⟩
  · exact absurd herror hnone
  · have hpre := hchain.prefix_of_le hholds.chain (by omega)
    exact absurd (fun r hr => hopen r (hpre.subset hr)) hlast
  · rcases hreason with ⟨k, sent, rfl, hdispatched, hall⟩ | ⟨e, rfl, hcause⟩
    · have hitems := congrArg List.length (Config.items_eq hdispatched)
      have hshort := hholds.chain.length_le
      rw [List.length_map] at hitems
      exact Or.inl ⟨by omega, k, sent, hr, hdispatched⟩
    · exact Or.inr ⟨e, hr, hcause⟩

/-- On its course a dispatcher whose items have all been put has returned a result. -/
theorem Dispatcher.OnCourse.returned {d : Dispatcher} (h : d.OnCourse c)
    (hsome : 0 < c.items.length) (hall : c.items.length ≤ d.bound c) :
    ∃ k, d.phase = .returned (.ok k) := by
  unfold Dispatcher.OnCourse at h
  unfold Dispatcher.bound at hall
  cases hphase : d.phase with
  | start =>
    rw [hphase] at hall
    simp only at hall
    omega
  | look st =>
    rw [hphase] at h hall
    have hlt := h.sent_lt
    have hid := h.id_eq
    simp only at hall
    omega
  | recvToken item next =>
    rw [hphase] at h hall
    have hlt := (List.getElem?_eq_some_iff.mp h.getElem?).1
    simp only at hall
    omega
  | send item next =>
    rw [hphase] at h hall
    have hlt := (List.getElem?_eq_some_iff.mp h.getElem?).1
    simp only at hall
    omega
  | returned r =>
    rw [hphase] at hall
    cases r with
    | ok k => exact ⟨k, rfl⟩
    | error e =>
      simp only at hall
      omega

/-- Why the output stage has left does not depend on its phase. -/
theorem State.Left.setPhase {phase : OutputPhase} {abort : Bool} {token : TokenChannel}
    (h : s.Left F) : State.Left F
      { s with abort := abort, token := token, output := { s.output with phase := phase } } := by
  rcases h with hclosed | herror | ⟨rs, ds, hholds, hrest⟩
  · exact Or.inl hclosed
  · exact Or.inr (Or.inl herror)
  · exact Or.inr (Or.inr ⟨rs, ds, { hholds with }, hrest⟩)

/-- The output stage has come to the end of a chunk. -/
theorem State.Stands.afterToken (hfind : Answers c.find) (hreads : ∀ r ∈ c.reads, r ≠ [])
    (hcourse : s.dispatcher.OnCourse c)
    (hwhole : ∀ k, s.dispatcher.phase = .returned (.ok k) → ∃ sent, c.dispatched = .ok (k, sent))
    {sinkOk final : Bool} {token : TokenChannel} (h : s.Stands F)
    (hphase : s.output.phase = .sendToken sinkOk final) :
    State.Stands F { s with token := token, output := s.output.afterToken sinkOk final } := by
  rw [State.Stands, hphase] at h
  rcases h with ⟨rfl, hclosed⟩ |
    ⟨rfl, rs, r, ds, d, hholds, hput, hreceived, hnextId, hsent, rfl⟩
  · exact Or.inl hclosed
  have hlength : (ds ++ [d]).length = ds.length + 1 := by simp
  have hholds' : Output.Holds c (s.output.afterToken true r.finalBlock) (rs ++ [r]) (ds ++ [d]) :=
    { hholds with }
  cases hfinal : r.finalBlock with
  | true =>
    rw [hfinal] at hholds'
    have hall := hholds.chain.length_of_final hfind hreads hfinal
    have hlast : (rs ++ [r]).length = rs.length + 1 := by simp
    obtain ⟨k, hk⟩ := hcourse.returned (by omega) (by omega)
    obtain ⟨sent, hdispatched⟩ := hwhole k hk
    refine Or.inr (Or.inr ⟨_, _, hholds', hreceived, ?_, Or.inl ⟨hall, k, sent, hk, hdispatched⟩⟩)
    rw [hlength, ← hsent]
    rfl
  | false =>
    rw [hfinal] at hholds'
    have hopen := (chain_snoc_iff.mp hholds.chain).2.1
    refine ⟨_, _, hholds', (unfinished_snoc hopen).mpr hfinal, hreceived, ?_, ?_⟩
    · rw [hlength, ← hnextId]
      rfl
    · rw [hlength, ← hsent]
      rfl

/-- The output stage keeps its account. -/
theorem OutputStep.stands (hfind : Answers c.find) (hreads : ∀ r ∈ c.reads, r ≠ [])
    (hcourse : s.dispatcher.OnCourse c) (hsourced : Sourced s) (hresolving : Resolving s)
    (hlive : s.output.phase.Looping → Live s) (hgoing : s.output.phase.Looping → Going F s)
    (h : s.Stands F) (hstep : OutputStep c s s') : s'.Stands F := by
  have hstands := h
  unfold State.Stands at hstands
  cases hstep with
  | @take d rest m hphase hnext hcheck =>
    rw [hphase] at hstands
    obtain ⟨rs, ds, hholds, hopen, hreceived, hnextId, hsent⟩ := hstands
    obtain ⟨r, hchain, hlt, hresolves, hfinal⟩ := hresolving.next hnext hholds hnextId
    have hput := hsourced.position_le
    have hposition : s.stageA.nextId ≤ s.stageA.position := by
      unfold StageA.position
      split
      · exact Nat.le_succ _
      · exact le_rfl
    have hlt' : rs.length < s.dispatcher.bound c := by omega
    refine ⟨rs, r, ds, d, ⟨hchain, hresolves, ?_, ?_, hholds.outErr_eq⟩, hlt', hreceived,
      hnextId, hsent, rfl, hfinal⟩
    · rw [checkAll_snoc, hholds.checked]
      exact hcheck
    · rw [sentBytes_snoc, List.flatten_append, List.length_append, ← hholds.totalUc_eq]
      simp
  | @reject d rest e hphase hnext hcheck =>
    rw [hphase] at hstands
    obtain ⟨rs, ds, hholds, hopen, hreceived, hnextId, hsent⟩ := hstands
    obtain ⟨r, hchain, -, hresolves, -⟩ := hresolving.next hnext hholds hnextId
    refine Or.inr (Or.inl ⟨e, rfl, .check hchain hresolves ?_⟩)
    rw [checkAll_snoc, hholds.checked]
    exact hcheck
  | finish hphase hnext hclosed =>
    rw [hphase] at hstands
    obtain ⟨rs, ds, hholds, hopen, hreceived, hnextId, hsent⟩ := hstands
    have hloop : s.output.phase.Looping := by rw [hphase]; trivial
    exact Or.inr (Or.inr ⟨rs, ds, { hholds with }, hreceived, hsent,
      (hgoing hloop).end_cases (hlive hloop) hphase hnext hclosed hholds hopen hnextId⟩)
  | recvDone hphase _ _ _ =>
    rw [hphase] at hstands
    obtain ⟨rs, ds, hholds, hrest⟩ := hstands
    simp only [State.Stands, hphase]
    exact ⟨rs, ds, { hholds with }, hrest⟩
  | recvErr _ _ _ hdone =>
    exact Or.inr (Or.inl ⟨_, rfl, (hresolving.pool.leave hdone).1.2 _ rfl⟩)
  | resolversDone hphase _ _ _ _ _ =>
    rw [hphase] at hstands
    obtain ⟨rs, ds, hholds, hrest⟩ := hstands
    simp only [State.Stands, hphase]
    exact ⟨rs, ds, { hholds with }, hrest⟩
  | deliver hphase _ =>
    rw [hphase] at hstands
    obtain ⟨rs, r, ds, d, hholds, hput, hreceived, hnextId, hsent, rfl, rfl⟩ := hstands
    refine Or.inr ⟨rfl, rs, r, ds, d, { hholds with }, hput, ?_, hnextId, hsent, rfl⟩
    rw [sentBytes_snoc, hreceived]
  | sinkClosed _ hsink => exact Or.inl ⟨rfl, hsink⟩
  | sendToken hphase _ _ =>
    exact h.afterToken hfind hreads hcourse (hgoing (by rw [hphase]; trivial)).whole hphase
  | tokenLost hphase _ =>
    exact h.afterToken hfind hreads hcourse (hgoing (by rw [hphase]; trivial)).whole hphase
  | teardown hphase =>
    rw [hphase] at hstands
    exact State.Left.setPhase hstands
  | dropTokenTx hphase =>
    rw [hphase] at hstands
    exact State.Left.setPhase hstands
  | dropDoneRx hphase =>
    rw [hphase] at hstands
    exact State.Left.setPhase hstands
  | join hphase _ _ _ hdispatcher =>
    rw [hphase] at hstands
    exact ⟨State.Left.setPhase hstands, _, hdispatcher, rfl⟩

/-- Leaving does not depend on what the dispatcher does afterwards. -/
theorem DispatchStep.left (h : s.Left F) (hstep : DispatchStep c s s') : s'.Left F := by
  have hrunning := hstep.running
  have hsame : s'.output = s.output ∧ s'.sink = s.sink := by cases hstep <;> exact ⟨rfl, rfl⟩
  unfold State.Left at h ⊢
  rw [hsame.1, hsame.2]
  rcases h with hclosed | herror | ⟨rs, ds, -, -, -, ⟨-, k, sent, hk, -⟩ | ⟨e, he, -⟩⟩
  · exact Or.inl hclosed
  · exact Or.inr (Or.inl herror)
  · exact absurd ⟨_, hk⟩ hrunning
  · exact absurd ⟨_, he⟩ hrunning

/-- The dispatcher keeps the account of the output stage. -/
theorem DispatchStep.output_stands (hnumbered : Numbered s) (hcourse : s.dispatcher.OnCourse c)
    (h : s.Stands F) (hstep : DispatchStep c s s') : s'.Stands F := by
  have hrunning := hstep.running
  have hbound := (hstep.bound_cases hnumbered hcourse).1
  have hsame : s'.output = s.output ∧ s'.sink = s.sink := by cases hstep <;> exact ⟨rfl, rfl⟩
  unfold State.Stands at h ⊢
  rw [hsame.1, hsame.2]
  cases hphase : s.output.phase with
  | drain =>
    rw [hphase] at h
    exact h
  | deliver bytes final =>
    rw [hphase] at h
    obtain ⟨rs, r, ds, d, hholds, hput, hrest⟩ := h
    exact ⟨rs, r, ds, d, hholds, Nat.lt_of_lt_of_le hput hbound, hrest⟩
  | sendToken sinkOk final =>
    rw [hphase] at h
    apply h.imp id
    rintro ⟨hok, rs, r, ds, d, hholds, hput, hrest⟩
    exact ⟨hok, rs, r, ds, d, hholds, Nat.lt_of_lt_of_le hput hbound, hrest⟩
  | leave =>
    rw [hphase] at h
    exact hstep.left h
  | dropTokenTx =>
    rw [hphase] at h
    exact hstep.left h
  | dropDoneRx =>
    rw [hphase] at h
    exact hstep.left h
  | joining =>
    rw [hphase] at h
    exact hstep.left h
  | returned res =>
    rw [hphase] at h
    obtain ⟨-, r, hr, -⟩ := h
    exact absurd ⟨r, hr⟩ hrunning

/-- The consumer drops its receiver. -/
theorem State.Stands.hangup (h : s.Stands F) :
    State.Stands F { s with sink := { s.sink with isOpen := false } } := by
  unfold State.Stands at h ⊢
  cases hphase : s.output.phase with
  | drain =>
    rw [hphase] at h
    exact h
  | deliver bytes final =>
    rw [hphase] at h
    exact h
  | sendToken sinkOk final =>
    rw [hphase] at h
    exact h.imp (fun h => ⟨h.1, rfl⟩) id
  | leave => exact Or.inl rfl
  | dropTokenTx => exact Or.inl rfl
  | dropDoneRx => exact Or.inl rfl
  | joining => exact Or.inl rfl
  | returned res =>
    rw [hphase] at h
    exact ⟨Or.inl rfl, h.2⟩

end Output

/-! ## The invariant -/

/-- The invariant of the streaming decoder. -/
structure Inv {c : Config} (F : String → Prop) (s : State c) : Prop where
  sourced : Sourced s
  chain : s.stageA.Stands c
  resolving : Resolving s
  going : s.output.phase.Looping → Going F s
  output : s.Stands F
  delivered : s.Delivered

section Invariant

variable {c : Config} {F : String → Prop} {s s' : State c}

/-- The invariant holds at the start. -/
theorem inv_init (c : Config) (F : String → Prop) : Inv F (init c) where
  sourced := ⟨Pool.every_start, by simp [init], le_rfl⟩
  chain := ⟨[], .nil, by simp [Unfinished], rfl, rfl⟩
  resolving := ⟨Pool.every_start, by simp [init]⟩
  going _ :=
    { ended := fun _ => (fun ⟨_, hr⟩ => by cases hr)
      whole := nofun
      closedA := nofun
      stopped := nofun
      closed := nofun }
  output := ⟨[], [], ⟨.nil, .nil, rfl, rfl, rfl⟩, by simp [Unfinished], rfl, rfl, rfl⟩
  delivered := ⟨[], [], _, .nil, .nil, rfl, rfl⟩

/-- Every step keeps what has been sent the chunks in order. -/
theorem Step.delivered (hstands : s.Stands F) (h : s.Delivered) (hstep : Step c s s') :
    s'.Delivered := by
  by_cases hsame : s'.sink.received = s.sink.received
  · obtain ⟨rs, ds, m, hchain, hresolves, hcheck, hreceived⟩ := h
    exact ⟨rs, ds, m, hchain, hresolves, hcheck, hsame.trans hreceived⟩
  cases hstep with
  | dispatch hstep =>
    cases hstep <;> exact absurd rfl hsame
  | work _ => exact absurd rfl hsame
  | stageA hstep =>
    cases hstep <;> exact absurd rfl hsame
  | resolve _ => exact absurd rfl hsame
  | output hstep =>
    cases hstep with
    | deliver hphase _ =>
      rw [State.Stands, hphase] at hstands
      obtain ⟨rs, r, ds, d, hholds, -, hreceived, -, -, rfl, -⟩ := hstands
      refine ⟨_, _, _, hholds.chain, hholds.resolves, hholds.checked, ?_⟩
      rw [sentBytes_snoc, hreceived]
    | _ => exact absurd rfl hsame

/-- Every step keeps the invariant. -/
theorem Reads.inv (hn : 0 < c.numThreads) (hfind : Answers c.find) (hreads : ∀ r ∈ c.reads, r ≠ [])
    (hfits : c.ItemsFit) (hnumbered : Numbered s) (hcourse : s.dispatcher.OnCourse c)
    (hlive : s.output.phase.Looping → Live s) (h : Inv F s) (hstep : Reads c F s s') :
    Inv F s' where
  sourced := hstep.1.sourced hfits hnumbered hcourse h.sourced
  chain := hstep.1.stands h.sourced h.chain
  resolving := hstep.1.resolving h.chain h.resolving
  going := Reads.going hn hfind hnumbered hcourse hlive h.chain h.going hstep
  output := by
    cases hstep.1 with
    | dispatch hstep => exact hstep.output_stands hnumbered hcourse h.output
    | work _ => exact h.output
    | stageA hstep =>
      cases hstep <;> exact h.output
    | resolve _ => exact h.output
    | output hstep =>
      exact hstep.stands hfind hreads hcourse h.sourced h.resolving hlive h.going h.output
  delivered := hstep.1.delivered h.output h.delivered

/-- A step of a call is a move. -/
theorem Call.move (h : Call c F s s') : Move c s s' := h.imp And.left id

/-- The invariant holds in every state. -/
theorem inv_of_reaches (hn : 0 < c.numThreads) (hfind : Answers c.find)
    (hreads : ∀ r ∈ c.reads, r ≠ []) (hover : c.dispatched ≠ .error .overflow)
    (hfits : c.ItemsFit) (h : Reaches (Call c F) (init c) s) :
    Reaches (Move c) (init c) s ∧ Inv F s := by
  refine h.invariant (fun s => Reaches (Move c) (init c) s ∧ Inv F s) ?_ ⟨.refl, inv_init c F⟩
  rintro s s' ⟨hreach, hinv⟩ hcall
  refine ⟨hreach.tail hcall.move, ?_⟩
  rcases hcall with hstep | hhangup
  · exact hstep.inv hn hfind hreads hfits (numbered_of_reaches hreach)
      (onCourse_of_reaches hfind hreads hover hreach) (live_of_reaches hn hreach) hinv
  · cases hhangup
    exact
      { sourced := ⟨hinv.sourced.workers, hinv.sourced.reorder, hinv.sourced.position_le⟩
        chain := hinv.chain
        resolving := ⟨hinv.resolving.pool, hinv.resolving.reorder⟩
        going := fun hloop => { hinv.going hloop with }
        output := hinv.output.hangup
        delivered := hinv.delivered }

/-- What the call returns as long as the sink was open: the output of all items, or an error with
a cause. -/
theorem Inv.returned (hinv : Inv F s) (hopen : s.sink.isOpen = true)
    {res : Except Error (ℕ × ℕ × ℕ)} (hreturned : s.Returned res) :
    (∃ rs ds m k sent, Chain c.items rs ∧ rs.length = c.items.length ∧ Resolves rs ds ∧
      checkAll c.crc ds = .ok m ∧ s.sink.received = sentBytes ds ∧
      c.dispatched = .ok (k, sent) ∧
      res = .ok ((sentBytes ds).flatten.length, ds.length, k)) ∨
    ∃ e, res = .error e ∧ (Fails c e ∨ DispatchFails c F (.failed e) ∨
      DispatchFails c F .overflow) := by
  have hstands := hinv.output
  rw [State.Returned] at hreturned
  rw [State.Stands, hreturned] at hstands
  obtain ⟨hleft, r, hr, rfl⟩ := hstands
  rcases hleft with hclosed | ⟨e, herr, hfails⟩ |
    ⟨rs, ds, hholds, hreceived, hsent, ⟨hall, k, sent, hk, hdispatched⟩ | ⟨e, he, hcause⟩⟩
  · rw [hopen] at hclosed
    cases hclosed
  · refine Or.inr ⟨e, ?_, Or.inl hfails⟩
    simp only [Output.result, herr]
  · rw [hr] at hk
    cases hk
    refine Or.inl ⟨rs, ds, _, k, sent, hholds.chain, hall, hholds.resolves, hholds.checked,
      hreceived, hdispatched, ?_⟩
    rw [Output.result, hholds.outErr_eq, hholds.totalUc_eq, hsent]
  · rw [hr] at he
    cases he
    apply Or.inr
    cases e with
    | overflow =>
      simp only [Output.result, hholds.outErr_eq]
      exact ⟨_, rfl, Or.inr (Or.inr hcause)⟩
    | failed e =>
      simp only [Output.result, hholds.outErr_eq]
      exact ⟨_, rfl, Or.inr (Or.inl hcause)⟩

end Invariant

end Streaming

end Pipeline

end RustyRapidgzip
