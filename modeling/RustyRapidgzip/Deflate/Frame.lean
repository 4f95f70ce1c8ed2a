import RustyRapidgzip.Deflate.Tokens

/-!
# Reading is local

A reading of the reference uses up a prefix of the remaining bits and does not look past
it. What follows may be exchanged, as long as the byte boundaries stay where they are.
-/

namespace RustyRapidgzip

open LsbBits Canonical Lz

namespace Reference

/-- The reading uses up a prefix, whatever follows it. -/
def Frames {α : Type} (read : List Bool → Option (α × List Bool)) : Prop :=
  ∀ bs a rest, read bs = some (a, rest) → ∃ used, bs = used ++ rest ∧
    ∀ rest', rest'.length % 8 = rest.length % 8 → read (used ++ rest') = some (a, rest')

namespace Frames

variable {α β : Type}

/-- Returning a value takes no bits. -/
theorem pure (a : α) : Frames fun bs => some (a, bs) := by
  rintro bs _ _ ⟨⟩
  exact ⟨[], rfl, fun _ _ => rfl⟩

/-- A failure takes no bits. -/
theorem fail : Frames fun _ => (none : Option (α × List Bool)) := by
  rintro bs a rest ⟨⟩

/-- One reading after another. -/
theorem bind {read : List Bool → Option (α × List Bool)}
    {next : α × List Bool → Option (β × List Bool)} (hread : Frames read)
    (hnext : ∀ a bs rest, read bs = some (a, rest) → Frames fun bs => next (a, bs)) :
    Frames fun bs => read bs >>= next := by
  intro bs b rest h
  obtain ⟨⟨a, mid⟩, hfirst, hsecond⟩ := Option.bind_eq_some_iff.mp h
  obtain ⟨used, rfl, hframe⟩ := hread bs a mid hfirst
  obtain ⟨used', rfl, hframe'⟩ := hnext a _ mid hfirst mid b rest hsecond
  refine ⟨used ++ used', by rw [List.append_assoc], fun rest' hrest => ?_⟩
  have hmid := hframe (used' ++ rest') (by simp only [List.length_append]; omega)
  simp only [List.append_assoc, hmid]
  exact hframe' rest' hrest

/-- A choice of two readers is one. -/
theorem ite {c : Prop} [Decidable c] {read read' : List Bool → Option (α × List Bool)}
    (hread : c → Frames read) (hread' : ¬c → Frames read') :
    Frames fun bs => if c then read bs else read' bs := by
  by_cases hc : c
  · simpa only [if_pos hc] using hread hc
  · simpa only [if_neg hc] using hread' hc

end Frames

/-- Reading bits is local. -/
theorem frames_readBits (n : ℕ) : Frames (readBits n) := by
  intro bs v rest h
  obtain ⟨hle, rfl, rfl⟩ := readBits_inv h
  refine ⟨bs.take n, (List.take_append_drop n bs).symm, fun rest' _ => ?_⟩
  have hlen : (bs.take n).length = n := List.length_take_of_le hle
  rw [readBits, if_pos (by rw [List.length_append]; omega), List.take_left' hlen,
    List.drop_left' hlen]

/-- Decoding a symbol of a prefix code is local. -/
theorem frames_decode {lens : List ℕ} (hkraft : Kraft lens 15) : Frames (decode lens 15) := by
  intro bs s rest h
  obtain ⟨hlt, hpos, hle, rfl⟩ := decode_some h
  exact ⟨_, rfl, fun rest' _ => decode_codeword hkraft rest' hlt hpos hle⟩

/-- Alignment is local, since what follows has as many bits over a byte. -/
theorem frames_alignBits : Frames fun bs => some ((), alignBits bs) := by
  rintro bs _ _ ⟨⟩
  refine ⟨bs.take (bs.length % 8), (List.take_append_drop _ bs).symm, fun rest' hrest => ?_⟩
  have hused : (bs.take (bs.length % 8)).length = bs.length % 8 :=
    List.length_take_of_le (Nat.mod_le _ _)
  have halign : rest'.length % 8 = 0 := by
    rw [hrest, alignBits, List.length_drop]
    omega
  have hlen : (bs.take (bs.length % 8) ++ rest').length % 8 = bs.length % 8 := by
    rw [List.length_append]
    omega
  simp only [alignBits]
  rw [hlen, List.drop_left' hused]

/-- Reading a distance is local. -/
theorem frames_readDistance {dist : List ℕ} (hkraft : Kraft dist 15) :
    Frames (readDistance dist) := by
  refine Frames.bind (frames_decode hkraft) fun sym _ _ _ => ?_
  dsimp only
  cases distance sym with
  | none => exact Frames.fail
  | some r =>
    refine Frames.bind (frames_readBits r.2) fun e _ _ _ => ?_
    exact Frames.pure (r.1 + e)

/-- Reading a token is local. -/
theorem frames_readToken {lit dist : List ℕ} (hlit : Kraft lit 15) (hdist : Kraft dist 15) :
    Frames (readToken lit dist) := by
  refine Frames.bind (frames_decode hlit) fun sym _ _ _ => ?_
  cases hsym : litLen sym with
  | literal b => simpa only [hsym] using Frames.pure (some (Token.lit b))
  | endOfBlock => simpa only [hsym] using Frames.pure none
  | length base extra =>
    simp only [hsym]
    refine Frames.bind (frames_readBits extra) fun e _ _ _ => ?_
    dsimp only
    refine Frames.bind (frames_readDistance hdist) fun d _ _ _ => ?_
    exact Frames.pure (some (Token.copy (base + e) d))
  | reserved => simpa only [hsym] using Frames.fail

/-- Reading bytes is local. -/
theorem frames_readBytes (n : ℕ) : Frames (readBytes n) := by
  induction n with
  | zero => exact Frames.pure []
  | succ n ih =>
    refine Frames.bind (frames_readBits 8) fun b _ _ _ => ?_
    refine Frames.bind ih fun data _ _ _ => ?_
    exact Frames.pure (UInt8.ofNat b :: data)

/-- Reading a stored block is local. -/
theorem frames_readStored : Frames readStored := by
  have halign : Frames fun bs => (some ((), alignBits bs) : Option (Unit × List Bool)) >>=
      fun r => readBits 16 r.2 :=
    Frames.bind frames_alignBits fun _ _ _ _ => frames_readBits 16
  refine Frames.bind halign fun len _ _ _ => ?_
  refine Frames.bind (frames_readBits 16) fun nlen _ _ _ => ?_
  exact Frames.ite (fun _ => frames_readBytes len) fun _ => Frames.fail

/-- A code-length symbol is read locally. -/
theorem frames_addLengths (total : ℕ) (lens : List ℕ) (sym : ℕ) :
    Frames (addLengths total lens sym) := by
  have hrepeated (n k v : ℕ) : Frames fun bs => (readBits n bs) >>= fun r =>
      if lens.length + (r.1 + k) ≤ total then
        some (lens ++ List.replicate (r.1 + k) v, r.2)
      else none := by
    refine Frames.bind (frames_readBits n) fun m _ _ _ => ?_
    by_cases hroom : lens.length + (m + k) ≤ total
    · simpa only [if_pos hroom] using Frames.pure (lens ++ List.replicate (m + k) v)
    · simpa only [if_neg hroom] using Frames.fail
  change Frames fun bs => addLengths total lens sym bs
  simp only [addLengths]
  refine Frames.ite (fun _ => Frames.pure _) fun _ => ?_
  refine Frames.ite (fun _ => ?_) fun _ => ?_
  swap
  · refine Frames.ite (fun _ => hrepeated 3 3 0) fun _ => ?_
    exact Frames.ite (fun _ => hrepeated 7 11 0) fun _ => Frames.fail
  cases lens.getLast? with
  | none => exact Frames.fail
  | some v => exact hrepeated 2 3 v

/-- Reading code lengths is local. -/
theorem frames_readLengths {cl : List ℕ} (hkraft : Kraft cl 15) (total rounds : ℕ)
    (lens : List ℕ) : Frames (readLengths cl total rounds lens) := by
  induction rounds generalizing lens with
  | zero => exact Frames.fail
  | succ rounds ih =>
    change Frames fun bs => readLengths cl total (rounds + 1) lens bs
    simp only [readLengths]
    refine Frames.ite (fun _ => ?_) fun _ => Frames.pure lens
    refine Frames.bind (frames_decode hkraft) fun sym _ _ _ => ?_
    exact Frames.bind (frames_addLengths total lens sym) fun lens' _ _ _ => ih lens'

/-- Reading the lengths of the length code is local. -/
theorem frames_readClLengths (order lens : List ℕ) : Frames (readClLengths order lens) := by
  induction order generalizing lens with
  | nil => exact Frames.pure lens
  | cons i order ih =>
    exact Frames.bind (frames_readBits 3) fun l _ _ _ => ih (lens.set i l)

/-- Reading the codes of a dynamic block is local. -/
theorem frames_readTrees : Frames readTrees := by
  unfold readTrees
  refine Frames.bind (frames_readBits 5) fun hlit _ _ _ => ?_
  refine Frames.bind (frames_readBits 5) fun hdist _ _ _ => ?_
  refine Frames.bind (frames_readBits 4) fun hclen _ _ _ => ?_
  refine Frames.ite (fun _ => ?_) fun _ => Frames.fail
  refine Frames.bind (frames_readClLengths _ _) fun cl _ _ _ => ?_
  refine Frames.ite (fun hcl => ?_) fun _ => Frames.fail
  refine Frames.bind (frames_readLengths hcl.2 _ _ _) fun lens _ _ _ => ?_
  exact Frames.ite (fun _ => Frames.pure _) fun _ => Frames.fail

/-- Reading the codes of a block is local. -/
theorem frames_readCodes (btype : ℕ) : Frames (readCodes btype) := by
  unfold readCodes
  refine Frames.ite (fun _ => Frames.pure _) fun _ => ?_
  exact Frames.ite (fun _ => frames_readTrees) fun _ => Frames.fail

/-! ## Bodies and blocks -/

variable {room : ℕ} {bs rest : List Bool} {ts : List Token} {f : Bool}

/-- The body of a block is local. -/
theorem Body.frame {lit dist : List ℕ} (hlit : Kraft lit 15) (hdist : Kraft dist 15)
    (h : Body room lit dist bs ts rest) : ∃ used, bs = used ++ rest ∧
      ∀ rest', rest'.length % 8 = rest.length % 8 → Body 0 lit dist (used ++ rest') ts rest' := by
  induction h with
  | stop htoken _ =>
    obtain ⟨used, rfl, hframe⟩ := frames_readToken hlit hdist _ _ _ htoken
    exact ⟨used, rfl, fun rest' hrest => .stop (hframe rest' hrest) (Nat.zero_le _)⟩
  | next htoken _ ih =>
    obtain ⟨used', rfl, hframe'⟩ := ih
    obtain ⟨used, rfl, hframe⟩ := frames_readToken hlit hdist _ _ _ htoken
    refine ⟨used ++ used', by rw [List.append_assoc], fun rest' hrest => ?_⟩
    have hread := hframe (used' ++ rest') (by simp only [List.length_append]; omega)
    rw [List.append_assoc]
    exact .next hread (hframe' rest' hrest)

/-- A block is local. -/
theorem Block.frame (h : Block room bs f ts rest) : ∃ used, bs = used ++ rest ∧
    ∀ rest', rest'.length % 8 = rest.length % 8 → Block 0 (used ++ rest') f ts rest' := by
  cases h with
  | stored hfinal htype hdata =>
    obtain ⟨used₃, rfl, hframe₃⟩ := frames_readStored _ _ _ hdata
    obtain ⟨used₂, rfl, hframe₂⟩ := frames_readBits 2 _ _ _ htype
    obtain ⟨used₁, rfl, hframe₁⟩ := frames_readBits 1 _ _ _ hfinal
    refine ⟨used₁ ++ (used₂ ++ used₃), by simp only [List.append_assoc], fun rest' hrest => ?_⟩
    simp only [List.append_assoc]
    exact .stored (hframe₁ _ (by simp only [List.length_append]; omega))
      (hframe₂ _ (by simp only [List.length_append]; omega)) (hframe₃ rest' hrest)
  | compressed hfinal htype hcodes hbody =>
    obtain ⟨-, hlit, hdist, -⟩ := readCodes_inv hcodes
    obtain ⟨used₄, rfl, hframe₄⟩ := hbody.frame hlit.2 hdist.2
    obtain ⟨used₃, rfl, hframe₃⟩ := frames_readCodes _ _ _ _ hcodes
    obtain ⟨used₂, rfl, hframe₂⟩ := frames_readBits 2 _ _ _ htype
    obtain ⟨used₁, rfl, hframe₁⟩ := frames_readBits 1 _ _ _ hfinal
    refine ⟨used₁ ++ (used₂ ++ (used₃ ++ used₄)), by simp only [List.append_assoc],
      fun rest' hrest => ?_⟩
    simp only [List.append_assoc]
    exact .compressed (hframe₁ _ (by simp only [List.length_append]; omega))
      (hframe₂ _ (by simp only [List.length_append]; omega))
      (hframe₃ _ (by simp only [List.length_append]; omega)) (hframe₄ rest' hrest)

/-- Runs of blocks use up a prefix, whatever follows it, if the stopping rules agree on the
block ends. -/
theorem Blocks.frame {stop : List Bool → Bool} (h : Blocks room stop bs f ts rest) :
    ∃ used, bs = used ++ rest ∧ ∀ (rest' : List Bool) (stop' : List Bool → Bool),
      rest'.length % 8 = rest.length % 8 →
      (∀ u, u <:+ used → stop' (u ++ rest') = stop (u ++ rest)) →
      Blocks 0 stop' (used ++ rest') f ts rest' := by
  induction h with
  | final hblock =>
    obtain ⟨used, rfl, hframe⟩ := hblock.frame
    exact ⟨used, rfl, fun rest' stop' hrest _ => .final (hframe rest' hrest)⟩
  | stop hblock hstop =>
    obtain ⟨used, rfl, hframe⟩ := hblock.frame
    refine ⟨used, rfl, fun rest' stop' hrest hstops => .stop (hframe rest' hrest) ?_⟩
    have h := hstops [] List.nil_suffix
    rwa [List.nil_append, List.nil_append, hstop] at h
  | more hblock hstop _ ih =>
    obtain ⟨used', rfl, hframe'⟩ := ih
    obtain ⟨used, rfl, hframe⟩ := hblock.frame
    refine ⟨used ++ used', by rw [List.append_assoc], fun rest' stop' hrest hstops => ?_⟩
    rw [List.append_assoc]
    refine .more (hframe _ (by simp only [List.length_append]; omega)) ?_
      (hframe' rest' stop' hrest fun u hu => hstops u (hu.trans (List.suffix_append _ _)))
    rw [hstops used' (List.suffix_append _ _), hstop]

/-- What follows a run of blocks is the end of the remaining bits. -/
theorem Blocks.suffix {stop : List Bool → Bool} (h : Blocks room stop bs f ts rest) :
    rest <:+ bs := by
  obtain ⟨used, rfl, -⟩ := h.frame
  exact List.suffix_append _ _

/-! ## Streams in parts -/

/-- A stream up to the first stopping point. -/
theorem Blocks.split {stop : List Bool → Bool} (stop' : List Bool → Bool)
    (hnever : ∀ bs, stop bs = false) (h : Blocks room stop bs f ts rest) :
    Blocks room stop' bs true ts rest ∨ ∃ ts₁ mid ts₂, Blocks room stop' bs false ts₁ mid ∧
      Blocks room stop mid f ts₂ rest ∧ ts = ts₁ ++ ts₂ := by
  induction h with
  | final hblock => exact Or.inl (.final hblock)
  | stop _ hstop =>
    rw [hnever] at hstop
    cases hstop
  | @more bs mid rest f ts us hblock _ htail ih =>
    cases hstop' : stop' mid with
    | true => exact Or.inr ⟨ts, mid, us, .stop hblock hstop', htail, rfl⟩
    | false =>
      rcases ih with hfinal | ⟨ts₁, mid', ts₂, hpart, hrest, rfl⟩
      · exact Or.inl (.more hblock hstop' hfinal)
      · exact Or.inr ⟨ts ++ ts₁, mid', ts₂, .more hblock hstop' hpart, hrest,
          by rw [List.append_assoc]⟩

/-- Blocks without the final one end where the decoder stops. -/
theorem stop_of_blocks {stop : List Bool → Bool} (h : Blocks room stop bs f ts rest)
    (hf : f = false) : stop rest = true := by
  induction h with
  | final _ => cases hf
  | stop _ hstop => exact hstop
  | more _ _ _ ih => exact ih hf

/-- A run of blocks that reached the final one is a stream. -/
theorem Blocks.stream {stop : List Bool → Bool} (stop' : List Bool → Bool)
    (hnever : ∀ bs, stop' bs = false) (h : Blocks room stop bs f ts rest) (hfinal : f = true) :
    Blocks room stop' bs true ts rest := by
  induction h with
  | final hblock => exact .final hblock
  | stop _ _ => cases hfinal
  | more hblock _ _ ih => exact .more hblock (hnever _) (ih hfinal)

/-- A run of blocks and the stream after it. -/
theorem Blocks.join {stop stop' : List Bool → Bool} (hnever : ∀ bs, stop' bs = false)
    {mid : List Bool} {us : List Token} {f' : Bool} (h : Blocks room stop bs f ts mid)
    (hfinal : f = false) (hrest : Blocks room stop' mid f' us rest) :
    Blocks room stop' bs f' (ts ++ us) rest := by
  induction h with
  | final _ => cases hfinal
  | stop hblock _ => exact .more hblock (hnever _) hrest
  | more hblock _ _ ih =>
    rw [List.append_assoc]
    exact .more hblock (hnever _) (ih hfinal hrest)

end Reference

end RustyRapidgzip
