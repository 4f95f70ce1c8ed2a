import RustyRapidgzip.Deflate.Reference
import Mathlib.Order.Basic

/-!
# Tokens read and expanded

Facts about the reference alone: a stream determines its tokens, tokens consume
bits, copies are bounded, and later bits do not matter. `Decodes` joins reading the
tokens of a block with expanding them over some alphabet.
-/

namespace RustyRapidgzip

open LsbBits Canonical Lz

namespace Reference

/-! ## Tokens -/

/-- A distance takes a bit. -/
theorem readDistance_length {dist : List ℕ} {d : ℕ} {bs rest : List Bool}
    (h : readDistance dist bs = some (d, rest)) : rest.length < bs.length := by
  obtain ⟨⟨sym, bs₁⟩, hdec, h⟩ := Option.bind_eq_some_iff.mp h
  obtain ⟨⟨base, extra⟩, -, h⟩ := Option.bind_eq_some_iff.mp h
  obtain ⟨⟨e, bs₂⟩, hread, h⟩ := Option.bind_eq_some_iff.mp h
  cases h
  have h₁ := decode_length hdec
  have h₂ := readBits_length hread
  omega

/-- A token consumes at least one bit. -/
theorem readToken_length {lit dist : List ℕ} {t : Option Token} {bs rest : List Bool}
    (h : readToken lit dist bs = some (t, rest)) : rest.length < bs.length := by
  obtain ⟨⟨sym, bs₁⟩, hdec, h⟩ := Option.bind_eq_some_iff.mp h
  have h₁ := decode_length hdec
  simp only at h
  cases hsym : litLen sym with
  | literal b =>
    rw [hsym] at h
    cases h
    exact h₁
  | endOfBlock =>
    rw [hsym] at h
    cases h
    exact h₁
  | length base extra =>
    rw [hsym] at h
    obtain ⟨⟨e, bs₂⟩, hread, h⟩ := Option.bind_eq_some_iff.mp h
    obtain ⟨⟨d, bs₃⟩, hdist, h⟩ := Option.bind_eq_some_iff.mp h
    cases h
    have h₂ := readBits_length hread
    have h₃ := readDistance_length hdist
    simp only at h₁ h₂ h₃ ⊢
    omega
  | reserved =>
    rw [hsym] at h
    cases h

/-- The longest match and the window size bound every copy. -/
def MAX_DISTANCE : ℕ := 32768

/-- A distance, with its extra bits, lies between 1 and 32768. -/
theorem distance_bounds {sym base extra : ℕ} (h : distance sym = some (base, extra)) :
    1 ≤ base ∧ base < 2 ^ 15 ∧ extra ≤ 13 ∧ base + (2 ^ extra - 1) ≤ MAX_DISTANCE := by
  have hall : ∀ sym ≤ 29, 1 ≤ DISTANCE_BASE.getD sym 0 ∧ DISTANCE_BASE.getD sym 0 < 2 ^ 15 ∧
      DISTANCE_EXTRA.getD sym 0 ≤ 13 ∧
      DISTANCE_BASE.getD sym 0 + (2 ^ DISTANCE_EXTRA.getD sym 0 - 1) ≤ MAX_DISTANCE := by
    decide
  unfold distance at h
  split at h
  · cases h
    exact hall sym ‹_›
  · cases h

/-- A length, with its extra bits, lies between 3 and 258. -/
theorem litLen_length_bounds {sym base extra : ℕ} (h : litLen sym = .length base extra) :
    3 ≤ base ∧ base < 2 ^ 9 ∧ extra ≤ 5 ∧ base + (2 ^ extra - 1) ≤ 258 := by
  have hall : ∀ i < 29, 3 ≤ LENGTH_BASE.getD i 0 ∧ LENGTH_BASE.getD i 0 < 2 ^ 9 ∧
      LENGTH_EXTRA.getD i 0 ≤ 5 ∧
      LENGTH_BASE.getD i 0 + (2 ^ LENGTH_EXTRA.getD i 0 - 1) ≤ 258 := by
    decide
  unfold litLen at h
  split at h
  · cases h
  split at h
  · cases h
  split at h
  · have hi : sym - 257 < 29 := by omega
    obtain ⟨rfl, rfl⟩ := LitLen.length.inj h
    exact hall (sym - 257) hi
  · cases h

/-- What a token's copy can be. -/
def CopyBounds : Token → Prop
  | .lit _ => True
  | .copy n d => 3 ≤ n ∧ n ≤ 258 ∧ 1 ≤ d ∧ d ≤ MAX_DISTANCE

/-- The distances of such a token stay within the window. -/
theorem CopyBounds.bounded {t : Token} (h : CopyBounds t) : t.Bounded MAX_DISTANCE := by
  cases t with
  | lit b => trivial
  | copy n d =>
    obtain ⟨hn, -, hd, hle⟩ := h
    exact ⟨Nat.lt_of_lt_of_le (by decide) hn, hd, hle⟩

/-- Such a token stands for 258 bytes at most. -/
theorem CopyBounds.size_le {t : Token} (h : CopyBounds t) : t.size ≤ 258 := by
  cases t with
  | lit b => exact Nat.succ_pos 257
  | copy n d => exact h.2.1

/-- The distances that are read stay within the window. -/
theorem readDistance_bounds {dist : List ℕ} {d : ℕ} {bs rest : List Bool}
    (h : readDistance dist bs = some (d, rest)) : 1 ≤ d ∧ d ≤ MAX_DISTANCE := by
  obtain ⟨⟨sym, bs₁⟩, -, h⟩ := Option.bind_eq_some_iff.mp h
  obtain ⟨⟨base, extra⟩, hsym, h⟩ := Option.bind_eq_some_iff.mp h
  obtain ⟨⟨e, bs₂⟩, hread, h⟩ := Option.bind_eq_some_iff.mp h
  cases h
  obtain ⟨hbase, -, -, hmax⟩ := distance_bounds hsym
  have he := readBits_lt hread
  omega

/-- The tokens that are read stay within their bounds. -/
theorem readToken_bounds {lit dist : List ℕ} {t : Token} {bs rest : List Bool}
    (h : readToken lit dist bs = some (some t, rest)) : CopyBounds t := by
  obtain ⟨⟨sym, bs₁⟩, -, h⟩ := Option.bind_eq_some_iff.mp h
  simp only at h
  cases hsym : litLen sym with
  | literal b =>
    rw [hsym] at h
    cases h
    trivial
  | endOfBlock =>
    rw [hsym] at h
    cases h
  | length base extra =>
    rw [hsym] at h
    obtain ⟨⟨e, bs₂⟩, hread, h⟩ := Option.bind_eq_some_iff.mp h
    obtain ⟨⟨d, bs₃⟩, hdist, h⟩ := Option.bind_eq_some_iff.mp h
    cases h
    obtain ⟨hbase, -, -, hmax⟩ := litLen_length_bounds hsym
    have he := readBits_lt hread
    have hd := readDistance_bounds hdist
    exact ⟨by omega, by omega, hd⟩
  | reserved =>
    rw [hsym] at h
    cases h

/-! ## Runs of tokens -/

/-- Some tokens read before the end of the block. -/
inductive Steps (lit dist : List ℕ) : List Bool → List Token → List Bool → Prop
  | nil {bs : List Bool} : Steps lit dist bs [] bs
  | cons {bs mid rest : List Bool} {t : Token} {ts : List Token}
      (htoken : readToken lit dist bs = some (some t, mid)) (htail : Steps lit dist mid ts rest) :
      Steps lit dist bs (t :: ts) rest

variable {room : ℕ} {lit dist : List ℕ} {bs mid rest rest' : List Bool} {ts us : List Token}

/-- One token is a run. -/
theorem Steps.single {t : Token} (h : readToken lit dist bs = some (some t, rest)) :
    Steps lit dist bs [t] rest :=
  .cons h .nil

/-- Each token consumes a bit. -/
theorem Steps.length_le (h : Steps lit dist bs ts rest) : rest.length + ts.length ≤ bs.length := by
  induction h with
  | nil => simp
  | cons htoken _ ih =>
    have := readToken_length htoken
    simp only [List.length_cons]
    omega

/-- A block's body continues the tokens read so far. -/
theorem Steps.body (h : Steps lit dist bs ts mid) (h' : Body room lit dist mid us rest) :
    Body room lit dist bs (ts ++ us) rest := by
  induction h with
  | nil => exact h'
  | cons htoken _ ih => exact .next htoken (ih h')

/-- The tokens read so far begin the block's body. -/
theorem Steps.of_body (h : Steps lit dist bs ts mid) (h' : Body room lit dist bs us rest) :
    ∃ us', us = ts ++ us' ∧ Body room lit dist mid us' rest := by
  induction h generalizing us with
  | nil => exact ⟨us, rfl, h'⟩
  | cons htoken _ ih =>
    cases h' with
    | stop hstop =>
      rw [htoken] at hstop
      cases hstop
    | next hnext htail =>
      rw [htoken] at hnext
      cases hnext
      obtain ⟨us', rfl, hbody⟩ := ih htail
      exact ⟨us', rfl, hbody⟩

/-- The room asked for is there all along the block. -/
theorem Body.room_le (h : Body room lit dist bs ts rest) : room ≤ bs.length := by
  induction h with
  | stop _ hroom => exact hroom
  | next htoken _ ih =>
    have := readToken_length htoken
    omega

/-- The body of a block takes a bit. -/
theorem Body.length_lt (h : Body room lit dist bs ts rest) : rest.length < bs.length := by
  induction h with
  | stop htoken _ => exact readToken_length htoken
  | next htoken _ ih =>
    have := readToken_length htoken
    omega

/-- The body of a block has no more tokens than bits. -/
theorem Body.tokens_le (h : Body room lit dist bs ts rest) :
    rest.length + ts.length ≤ bs.length := by
  induction h with
  | stop htoken _ =>
    have := readToken_length htoken
    rw [List.length_nil]
    omega
  | next htoken _ ih =>
    have := readToken_length htoken
    rw [List.length_cons]
    omega

/-- The tokens of a block stay within their bounds. -/
theorem Body.bounds (h : Body room lit dist bs ts rest) : ∀ t ∈ ts, CopyBounds t := by
  induction h with
  | stop _ _ => simp
  | next htoken _ ih =>
    rw [List.forall_mem_cons]
    exact ⟨readToken_bounds htoken, ih⟩

/-- The bits determine the body. -/
theorem Body.unique {room' : ℕ} (h : Body room lit dist bs ts rest)
    (h' : Body room' lit dist bs us rest') : ts = us ∧ rest = rest' := by
  induction h generalizing us with
  | stop htoken _ =>
    cases h' with
    | stop htoken' _ =>
      rw [htoken] at htoken'
      cases htoken'
      exact ⟨rfl, rfl⟩
    | next htoken' _ =>
      rw [htoken] at htoken'
      cases htoken'
  | next htoken _ ih =>
    cases h' with
    | stop htoken' _ =>
      rw [htoken] at htoken'
      cases htoken'
    | next htoken' htail' =>
      rw [htoken] at htoken'
      cases htoken'
      obtain ⟨rfl, rfl⟩ := ih htail'
      exact ⟨rfl, rfl⟩

/-- A body with enough bits after it has the room. -/
theorem Body.of_rest {room' : ℕ} (h : Body room lit dist bs ts rest)
    (hroom : room' ≤ rest.length) : Body room' lit dist bs ts rest := by
  induction h with
  | stop htoken _ =>
    have := readToken_length htoken
    exact .stop htoken (by omega)
  | next htoken _ ih => exact .next htoken (ih hroom)

/-- A block that has room has less room too. -/
theorem Body.mono {room' : ℕ} (h : Body room lit dist bs ts rest) (hle : room' ≤ room) :
    Body room' lit dist bs ts rest := by
  induction h with
  | stop htoken hroom => exact .stop htoken (by omega)
  | next htoken _ ih => exact .next htoken ih

/-! ## Reading and expanding -/

/-- A block body turns the history `out` into `res` and leaves `rest`. -/
def Decodes {α : Type} (room : ℕ) (lit dist : List ℕ) (f : UInt8 → α) (bs : List Bool)
    (out : List α) (rest : List Bool) (res : List α) : Prop :=
  ∃ ts, Body room lit dist bs ts rest ∧ expand f out ts = some res

/-- How a block body begins. -/
theorem Decodes.cases {α : Type} {f : UInt8 → α} {out res : List α}
    (h : Decodes room lit dist f bs out rest res) :
    (readToken lit dist bs = some (none, rest) ∧ room ≤ bs.length ∧ res = out) ∨
    ∃ t mid out', readToken lit dist bs = some (some t, mid) ∧
      expandToken f out t = some out' ∧ Decodes room lit dist f mid out' rest res := by
  obtain ⟨ts, hbody, hexpand⟩ := h
  cases hbody with
  | stop htoken hroom =>
    cases hexpand
    exact Or.inl ⟨htoken, hroom, rfl⟩
  | next htoken htail =>
    rw [expand_cons, Option.bind_eq_some_iff] at hexpand
    obtain ⟨out', ht, hts⟩ := hexpand
    exact Or.inr ⟨_, _, out', htoken, ht, _, htail, hts⟩

/-- What is decoded leaves its room, and so starts with it. -/
theorem Decodes.room_le {α : Type} {f : UInt8 → α} {out res : List α}
    (h : Decodes room lit dist f bs out rest res) : room ≤ bs.length :=
  h.elim fun _ hts => hts.1.room_le

/-- Nothing is decoded where no token can be read. -/
theorem not_decodes_of_readToken {α : Type} {f : UInt8 → α} {out res : List α}
    (h : readToken lit dist bs = none) : ¬Decodes room lit dist f bs out rest res := by
  intro hdec
  rcases hdec.cases with ⟨htoken, -⟩ | ⟨t, mid, out', htoken, -⟩
  · rw [h] at htoken
    cases htoken
  · rw [h] at htoken
    cases htoken

/-- Nothing is decoded past a copy that reaches before the history. -/
theorem not_decodes_of_expandToken {α : Type} {f : UInt8 → α} {out res : List α} {t : Token}
    (h : readToken lit dist bs = some (some t, mid)) (ht : expandToken f out t = none) :
    ¬Decodes room lit dist f bs out rest res := by
  intro hdec
  rcases hdec.cases with ⟨htoken, -⟩ | ⟨t', mid', out', htoken, ht', -⟩
  · rw [h] at htoken
    cases htoken
  · rw [h] at htoken
    cases htoken
    rw [ht] at ht'
    cases ht'

/-- Tokens read and expanded by one round lead to the same end. -/
theorem Steps.decodes_iff {α : Type} {f : UInt8 → α} {out out' res : List α}
    (h : Steps lit dist bs ts mid) (hexpand : expand f out ts = some out') :
    Decodes room lit dist f mid out' rest res ↔ Decodes room lit dist f bs out rest res := by
  constructor
  · rintro ⟨us, hbody, hus⟩
    exact ⟨ts ++ us, h.body hbody, by rw [expand_append, hexpand]; exact hus⟩
  · rintro ⟨us, hbody, hus⟩
    obtain ⟨us', rfl, hbody'⟩ := h.of_body hbody
    rw [expand_append, hexpand] at hus
    exact ⟨us', hbody', hus⟩

/-! ## Blocks -/

/-- Bytes are taken from the bits. -/
theorem readBytes_length {n : ℕ} {data : List UInt8} (h : readBytes n bs = some (data, rest)) :
    rest.length + data.length ≤ bs.length := by
  induction n generalizing bs data with
  | zero =>
    cases h
    exact le_rfl
  | succ n ih =>
    obtain ⟨⟨b, bs₁⟩, hread, h⟩ := Option.bind_eq_some_iff.mp h
    obtain ⟨⟨tail, bs₂⟩, hbytes, h⟩ := Option.bind_eq_some_iff.mp h
    cases h
    have h₁ := readBits_length hread
    have h₂ := ih hbytes
    rw [List.length_cons]
    omega

/-- A stored block takes the bits of its bytes. -/
theorem readStored_length {data : List UInt8} (h : readStored bs = some (data, rest)) :
    rest.length + data.length ≤ bs.length := by
  obtain ⟨⟨len, bs₁⟩, h₁, h⟩ := Option.bind_eq_some_iff.mp h
  obtain ⟨⟨nlen, bs₂⟩, h₂, h⟩ := Option.bind_eq_some_iff.mp h
  simp only [Option.ite_none_right_eq_some] at h
  have h₁ := readBits_length h₁
  have h₂ := readBits_length h₂
  have h₃ := readBytes_length h.2
  have halign : (alignBits bs).length ≤ bs.length := by simp [alignBits]
  omega

/-- Reading the lengths of the length code gives no bits back. -/
theorem readClLengths_length {order lens lens' : List ℕ}
    (h : readClLengths order lens bs = some (lens', rest)) : rest.length ≤ bs.length := by
  induction order generalizing lens bs with
  | nil =>
    cases h
    exact le_rfl
  | cons i order ih =>
    rw [readClLengths] at h
    obtain ⟨⟨l, mid⟩, hread, hrest⟩ := Option.bind_eq_some_iff.mp h
    have h₁ := readBits_length hread
    have h₂ := ih hrest
    omega

/-- A code-length symbol adds a length or more, up to the total, and gives no bits back. -/
theorem addLengths_length {total sym : ℕ} {lens lens' : List ℕ}
    (h : addLengths total lens sym bs = some (lens', rest)) :
    rest.length ≤ bs.length ∧ lens.length < lens'.length ∧
      (lens.length < total → lens'.length ≤ total) := by
  have hrepeated {n k v : ℕ} (hk : 0 < k) (h : ((readBits n bs).bind fun r =>
      if lens.length + (r.1 + k) ≤ total then
        some (lens ++ List.replicate (r.1 + k) v, r.2)
      else none) = some (lens', rest)) :
      rest.length ≤ bs.length ∧ lens.length < lens'.length ∧
        (lens.length < total → lens'.length ≤ total) := by
    obtain ⟨⟨m, mid⟩, hread, h⟩ := Option.bind_eq_some_iff.mp h
    have hle := readBits_length hread
    simp only [Option.ite_none_right_eq_some, Option.some.injEq, Prod.mk.injEq] at h
    obtain ⟨hle', rfl, rfl⟩ := h
    simp only [List.length_append, List.length_replicate]
    omega
  simp only [addLengths] at h
  split at h
  · cases h
    simp only [List.length_append, List.length_singleton]
    omega
  split at h
  · obtain ⟨prev, -, h⟩ := Option.bind_eq_some_iff.mp h
    exact hrepeated (by decide) h
  split at h
  · exact hrepeated (by decide) h
  split at h
  · exact hrepeated (by decide) h
  · cases h

/-- Reading the lengths gives no bits back. -/
theorem readLengths_length {cl : List ℕ} {total rounds : ℕ} {lens lens' : List ℕ}
    (h : readLengths cl total rounds lens bs = some (lens', rest)) :
    rest.length ≤ bs.length := by
  induction rounds generalizing lens bs with
  | zero => cases h
  | succ rounds ih =>
    rw [readLengths] at h
    split at h
    · obtain ⟨⟨sym, mid⟩, hdec, h⟩ := Option.bind_eq_some_iff.mp h
      obtain ⟨⟨lens₁, mid₁⟩, hadd, h⟩ := Option.bind_eq_some_iff.mp h
      have h₁ := decode_length hdec
      have h₂ := (addLengths_length hadd).1
      have h₃ := ih h
      omega
    · cases h
      exact le_rfl

/-- A dynamic header consumes bits and describes two prefix codes, the first of at
most 286 symbols. -/
theorem readTrees_inv (h : readTrees bs = some ((lit, dist), rest)) :
    rest.length ≤ bs.length ∧ PrefixCode lit ∧ PrefixCode dist ∧ lit.length ≤ 286 := by
  obtain ⟨⟨hlit, bs₁⟩, h₁, h⟩ := Option.bind_eq_some_iff.mp h
  obtain ⟨⟨hdist, bs₂⟩, h₂, h⟩ := Option.bind_eq_some_iff.mp h
  obtain ⟨⟨hclen, bs₃⟩, h₃, h⟩ := Option.bind_eq_some_iff.mp h
  simp only [Option.ite_none_right_eq_some] at h
  obtain ⟨hrange, h⟩ := h
  obtain ⟨⟨cl, bs₄⟩, h₄, h⟩ := Option.bind_eq_some_iff.mp h
  simp only [Option.ite_none_right_eq_some] at h
  obtain ⟨⟨lens, bs₅⟩, h₅, h⟩ := Option.bind_eq_some_iff.mp h.2
  simp only [Option.ite_none_right_eq_some, Option.some.injEq, Prod.mk.injEq] at h
  obtain ⟨⟨-, hlitcode, hdistcode⟩, ⟨rfl, rfl⟩, rfl⟩ := h
  have h₁ := readBits_length h₁
  have h₂ := readBits_length h₂
  have h₃ := readBits_length h₃
  have h₄ := readClLengths_length h₄
  have h₅ := readLengths_length h₅
  refine ⟨by omega, hlitcode, hdistcode, ?_⟩
  rw [List.length_take]
  omega

/-- The fixed codes are prefix codes. -/
theorem prefixCode_fixed :
    PrefixCode fixedLiteralLengths ∧ PrefixCode fixedDistanceLengths := by
  decide +kernel

/-- The codes of a compressed block are prefix codes of the sizes the format allows. -/
theorem readCodes_inv {btype : ℕ} (h : readCodes btype bs = some ((lit, dist), rest)) :
    rest.length ≤ bs.length ∧ PrefixCode lit ∧ PrefixCode dist ∧ lit.length ≤ 288 := by
  unfold readCodes at h
  split at h
  · simp only [Option.some.injEq, Prod.mk.injEq] at h
    obtain ⟨⟨rfl, rfl⟩, rfl⟩ := h
    exact ⟨le_rfl, prefixCode_fixed.1, prefixCode_fixed.2, by decide +kernel⟩
  split at h
  · obtain ⟨hle, hlit, hdist, hlen⟩ := readTrees_inv h
    exact ⟨hle, hlit, hdist, by omega⟩
  · cases h

variable {f f' : Bool}

/-- A block consumes its header and what follows. -/
theorem Block.length_lt (h : Block room bs f ts rest) : rest.length < bs.length := by
  cases h with
  | stored hfinal htype hdata =>
    have h₁ := readBits_length hfinal
    have h₂ := readBits_length htype
    have h₃ := readStored_length hdata
    omega
  | compressed hfinal htype hcodes hbody =>
    have h₁ := readBits_length hfinal
    have h₂ := readBits_length htype
    have h₃ := (readCodes_inv hcodes).1
    have h₄ := hbody.length_lt
    omega

/-- Each token of a block consumes a bit. -/
theorem Block.tokens_le (h : Block room bs f ts rest) : rest.length + ts.length ≤ bs.length := by
  cases h with
  | stored hfinal htype hdata =>
    have h₁ := readBits_length hfinal
    have h₂ := readBits_length htype
    have h₃ := readStored_length hdata
    rw [List.length_map]
    omega
  | compressed hfinal htype hcodes hbody =>
    have h₁ := readBits_length hfinal
    have h₂ := readBits_length htype
    have h₃ := (readCodes_inv hcodes).1
    have h₄ := hbody.tokens_le
    omega

/-- The bits determine the block. -/
theorem Block.unique {room' : ℕ} (h : Block room bs f ts rest) (h' : Block room' bs f' us rest') :
    f = f' ∧ ts = us ∧ rest = rest' := by
  have hreserved (bs : List Bool) : readCodes 0 bs = none := rfl
  cases h with
  | stored hfinal htype hdata =>
    cases h' with
    | stored hfinal' htype' hdata' =>
      rw [hfinal] at hfinal'
      cases hfinal'
      rw [htype] at htype'
      cases htype'
      rw [hdata] at hdata'
      cases hdata'
      exact ⟨rfl, rfl, rfl⟩
    | compressed hfinal' htype' hcodes' _ =>
      rw [hfinal] at hfinal'
      cases hfinal'
      rw [htype] at htype'
      cases htype'
      rw [hreserved] at hcodes'
      cases hcodes'
  | compressed hfinal htype hcodes hbody =>
    cases h' with
    | stored hfinal' htype' _ =>
      rw [hfinal] at hfinal'
      cases hfinal'
      rw [htype] at htype'
      cases htype'
      rw [hreserved] at hcodes
      cases hcodes
    | compressed hfinal' htype' hcodes' hbody' =>
      rw [hfinal] at hfinal'
      cases hfinal'
      rw [htype] at htype'
      cases htype'
      rw [hcodes] at hcodes'
      cases hcodes'
      obtain ⟨rfl, rfl⟩ := hbody.unique hbody'
      exact ⟨rfl, rfl, rfl⟩

/-- A block that has room has less room too. -/
theorem Block.mono {room' : ℕ} (h : Block room bs f ts rest) (hle : room' ≤ room) :
    Block room' bs f ts rest := by
  cases h with
  | stored hfinal htype hdata => exact .stored hfinal htype hdata
  | compressed hfinal htype hcodes hbody =>
    exact .compressed hfinal htype hcodes (hbody.mono hle)

/-- A block has the room that follows it. -/
theorem Block.of_rest {room' : ℕ} (h : Block room bs f ts rest) (hroom : room' ≤ rest.length) :
    Block room' bs f ts rest := by
  cases h with
  | stored hfinal htype hdata => exact .stored hfinal htype hdata
  | compressed hfinal htype hcodes hbody =>
    exact .compressed hfinal htype hcodes (hbody.of_rest hroom)

/-- The copies of a block are bounded. -/
theorem Block.bounds (h : Block room bs f ts rest) : ∀ t ∈ ts, CopyBounds t := by
  cases h with
  | stored _ _ _ =>
    intro t ht
    obtain ⟨b, -, rfl⟩ := List.mem_map.mp ht
    trivial
  | compressed _ _ _ hbody => exact hbody.bounds

variable {stop : List Bool → Bool}

/-- Blocks take a bit. -/
theorem Blocks.length_lt (h : Blocks room stop bs f ts rest) : rest.length < bs.length := by
  induction h with
  | final hblock => exact hblock.length_lt
  | stop hblock _ => exact hblock.length_lt
  | more hblock _ _ ih =>
    have := hblock.length_lt
    omega

/-- Blocks have no more tokens than bits. -/
theorem Blocks.tokens_le (h : Blocks room stop bs f ts rest) :
    rest.length + ts.length ≤ bs.length := by
  induction h with
  | final hblock => exact hblock.tokens_le
  | stop hblock _ => exact hblock.tokens_le
  | more hblock _ _ ih =>
    have := hblock.tokens_le
    rw [List.length_append]
    omega

/-- The bits and the stopping rule determine the blocks. -/
theorem Blocks.unique {room' : ℕ} (h : Blocks room stop bs f ts rest)
    (h' : Blocks room' stop bs f' us rest') : f = f' ∧ ts = us ∧ rest = rest' := by
  induction h generalizing us with
  | final hblock =>
    cases h' with
    | final hblock' => exact hblock.unique hblock'
    | stop hblock' _ => cases (hblock.unique hblock').1
    | more hblock' _ _ => cases (hblock.unique hblock').1
  | stop hblock hstop =>
    cases h' with
    | final hblock' => cases (hblock.unique hblock').1
    | stop hblock' _ => exact hblock.unique hblock'
    | more hblock' hstop' _ =>
      obtain ⟨-, -, rfl⟩ := hblock.unique hblock'
      rw [hstop] at hstop'
      cases hstop'
  | more hblock hstop _ ih =>
    cases h' with
    | final hblock' => cases (hblock.unique hblock').1
    | stop hblock' hstop' =>
      obtain ⟨-, -, rfl⟩ := hblock.unique hblock'
      rw [hstop] at hstop'
      cases hstop'
    | more hblock' _ htail' =>
      obtain ⟨-, rfl, rfl⟩ := hblock.unique hblock'
      obtain ⟨rfl, rfl, rfl⟩ := ih htail'
      exact ⟨rfl, rfl, rfl⟩

/-- Blocks that have room have less room too. -/
theorem Blocks.mono {room' : ℕ} (h : Blocks room stop bs f ts rest) (hle : room' ≤ room) :
    Blocks room' stop bs f ts rest := by
  induction h with
  | final hblock => exact .final (hblock.mono hle)
  | stop hblock hstop => exact .stop (hblock.mono hle) hstop
  | more hblock hstop _ ih => exact .more (hblock.mono hle) hstop ih

/-- Blocks with enough bits after them have the room. -/
theorem Blocks.of_rest {room' : ℕ} (h : Blocks room stop bs f ts rest)
    (hroom : room' ≤ rest.length) : Blocks room' stop bs f ts rest := by
  induction h with
  | final hblock => exact .final (hblock.of_rest hroom)
  | stop hblock hstop => exact .stop (hblock.of_rest hroom) hstop
  | more hblock hstop htail ih =>
    have := htail.length_lt
    exact .more (hblock.of_rest (by omega)) hstop (ih hroom)

/-- The tokens of blocks stay within their bounds. -/
theorem Blocks.bounds (h : Blocks room stop bs f ts rest) : ∀ t ∈ ts, CopyBounds t := by
  induction h with
  | final hblock => exact hblock.bounds
  | stop hblock _ => exact hblock.bounds
  | more hblock _ _ ih =>
    intro t ht
    rcases List.mem_append.mp ht with hleft | hright
    · exact hblock.bounds t hleft
    · exact ih t hright

/-- No bit of a stream stands for more than 258 bytes of the output. -/
theorem Blocks.output_le {α : Type} {lift : UInt8 → α} {out res : List α}
    (h : Blocks room stop bs f ts rest) (hexpand : expand lift out ts = some res) :
    res.length ≤ out.length + 258 * bs.length := by
  have hsize := expand_length_le hexpand fun t ht => (h.bounds t ht).size_le
  have htokens := h.tokens_le
  omega

/-- A block turns the history `out` into `res`. -/
def BlockDecodes {α : Type} (room : ℕ) (lift : UInt8 → α) (bs : List Bool) (out : List α)
    (f : Bool) (rest : List Bool) (res : List α) : Prop :=
  ∃ ts, Block room bs f ts rest ∧ expand lift out ts = some res

/-- Blocks up to a stopping point turn the history `out` into `res`. -/
def BlocksDecode {α : Type} (room : ℕ) (stop : List Bool → Bool) (lift : UInt8 → α)
    (bs : List Bool) (out : List α) (f : Bool) (rest : List Bool) (res : List α) : Prop :=
  ∃ ts, Blocks room stop bs f ts rest ∧ expand lift out ts = some res

/-- The bits and the output before them determine what blocks decode to. -/
theorem BlocksDecode.unique {α : Type} {room' : ℕ} {lift : UInt8 → α} {out res res' : List α}
    (h : BlocksDecode room stop lift bs out f rest res)
    (h' : BlocksDecode room' stop lift bs out f' rest' res') :
    f = f' ∧ rest = rest' ∧ res = res' := by
  obtain ⟨ts, hblocks, hts⟩ := h
  obtain ⟨us, hblocks', hus⟩ := h'
  obtain ⟨rfl, rfl, rfl⟩ := hblocks.unique hblocks'
  rw [hts] at hus
  cases hus
  exact ⟨rfl, rfl, rfl⟩

/-- How a run of blocks begins. -/
theorem BlocksDecode.cases {α : Type} {lift : UInt8 → α} {out res : List α}
    (h : BlocksDecode room stop lift bs out f rest res) :
    ∃ f₁ mid out', BlockDecodes room lift bs out f₁ mid out' ∧
      ((f₁ = true ∧ f = true ∧ rest = mid ∧ res = out') ∨
        (f₁ = false ∧ stop mid = true ∧ f = false ∧ rest = mid ∧ res = out') ∨
        (f₁ = false ∧ stop mid = false ∧
          BlocksDecode room stop lift mid out' f rest res)) := by
  obtain ⟨ts, hblocks, hts⟩ := h
  cases hblocks with
  | final hblock => exact ⟨true, rest, res, ⟨ts, hblock, hts⟩, Or.inl ⟨rfl, rfl, rfl, rfl⟩⟩
  | stop hblock hstop =>
    exact ⟨false, rest, res, ⟨ts, hblock, hts⟩, Or.inr (Or.inl ⟨rfl, hstop, rfl, rfl, rfl⟩)⟩
  | more hblock hstop htail =>
    rw [expand_append, Option.bind_eq_some_iff] at hts
    obtain ⟨out', hout', hres⟩ := hts
    exact ⟨false, _, out', ⟨_, hblock, hout'⟩, Or.inr (Or.inr ⟨rfl, hstop, _, htail, hres⟩)⟩

/-- A block takes at least one bit. -/
theorem BlockDecodes.length_lt {α : Type} {lift : UInt8 → α} {out res : List α}
    (h : BlockDecodes room lift bs out f rest res) : rest.length < bs.length := by
  obtain ⟨ts, hblock, -⟩ := h
  exact hblock.length_lt

/-- A final block is a run by itself. -/
theorem BlockDecodes.final {α : Type} {lift : UInt8 → α} {out res : List α}
    (h : BlockDecodes room lift bs out true rest res) :
    BlocksDecode room stop lift bs out true rest res := by
  obtain ⟨ts, hblock, hts⟩ := h
  exact ⟨ts, .final hblock, hts⟩

/-- A block that neither is final nor stops continues with the blocks after it. -/
theorem BlockDecodes.more {α : Type} {lift : UInt8 → α} {out out' res : List α}
    (h : BlockDecodes room lift bs out false mid out') (hstop : stop mid = false)
    (htail : BlocksDecode room stop lift mid out' f rest res) :
    BlocksDecode room stop lift bs out f rest res := by
  obtain ⟨ts, hblock, hts⟩ := h
  obtain ⟨us, hblocks, hus⟩ := htail
  exact ⟨ts ++ us, .more hblock hstop hblocks, by rw [expand_append, hts]; exact hus⟩

/-- The blocks after the first one. -/
theorem BlockDecodes.tail {α : Type} {room' : ℕ} {lift : UInt8 → α} {out out' res : List α}
    (h : BlockDecodes room lift bs out false mid out') (hstop : stop mid = false)
    (hrun : BlocksDecode room' stop lift bs out f rest res) :
    BlocksDecode room' stop lift mid out' f rest res := by
  obtain ⟨ts, hblock, hts⟩ := h
  obtain ⟨f₁, mid', out'', ⟨us, hblock', hus⟩, hcase⟩ := hrun.cases
  obtain ⟨hf, rfl, rfl⟩ := hblock.unique hblock'
  rw [hts] at hus
  cases hus
  rcases hcase with ⟨h, -⟩ | ⟨-, h, -⟩ | ⟨-, -, htail⟩
  · rw [h] at hf
    cases hf
  · rw [h] at hstop
    cases hstop
  · exact htail

/-! ## The functions compute the grammar -/

/-- With enough rounds the function reads the bodies of the grammar. -/
theorem readBody_iff {rounds : ℕ} (hrounds : bs.length ≤ rounds) :
    readBody lit dist rounds bs = some (ts, rest) ↔ Body 0 lit dist bs ts rest := by
  induction rounds generalizing bs ts with
  | zero =>
    obtain rfl : bs = [] := List.length_eq_zero_iff.mp (by omega)
    refine ⟨fun h => (by cases h), fun h => ?_⟩
    have := h.length_lt
    simp at this
  | succ rounds ih =>
    constructor
    · intro h
      obtain ⟨⟨t, mid⟩, htoken, h⟩ := Option.bind_eq_some_iff.mp h
      cases t with
      | none =>
        cases h
        exact .stop htoken (Nat.zero_le _)
      | some t =>
        obtain ⟨⟨us, mid'⟩, hbody, h⟩ := Option.bind_eq_some_iff.mp h
        cases h
        have hlt := readToken_length htoken
        exact .next htoken ((ih (by omega)).mp hbody)
    · intro h
      cases h with
      | stop htoken _ =>
        rw [readBody, htoken]
        rfl
      | next htoken htail =>
        have hlt := readToken_length htoken
        rw [readBody, htoken]
        simp only [bind, Option.bind_some, (ih (by omega)).mpr htail]

/-- The function reads the blocks of the grammar. -/
theorem readBlock_iff :
    readBlock bs = some ((f, ts), rest) ↔ Block 0 bs f ts rest := by
  constructor
  · intro h
    obtain ⟨⟨bfinal, bs₁⟩, hfinal, h⟩ := Option.bind_eq_some_iff.mp h
    obtain ⟨⟨btype, bs₂⟩, htype, h⟩ := Option.bind_eq_some_iff.mp h
    simp only at h
    split at h
    · next hstored =>
      subst btype
      obtain ⟨⟨data, bs₃⟩, hdata, h⟩ := Option.bind_eq_some_iff.mp h
      cases h
      exact .stored hfinal htype hdata
    · obtain ⟨⟨⟨lit, dist⟩, bs₃⟩, hcodes, h⟩ := Option.bind_eq_some_iff.mp h
      obtain ⟨⟨ts', bs₄⟩, hbody, h⟩ := Option.bind_eq_some_iff.mp h
      cases h
      exact .compressed hfinal htype hcodes ((readBody_iff le_rfl).mp hbody)
  · intro h
    cases h with
    | stored hfinal htype hdata =>
      simp only [readBlock, bind, hfinal, htype, hdata, Option.bind_some, if_true]
    | compressed hfinal htype hcodes hbody =>
      have hne : ∀ t bs, readCodes t bs ≠ none → t ≠ 0 := by
        rintro t bs h rfl
        exact h rfl
      have hbtype := hne _ _ (by rw [hcodes]; simp)
      simp only [readBlock, bind, hfinal, htype, if_neg hbtype, hcodes, Option.bind_some,
        (readBody_iff le_rfl).mpr hbody]

/-- With enough rounds the function reads the streams of the grammar. -/
theorem readStream_iff {rounds : ℕ} (hrounds : bs.length ≤ rounds) :
    readStream rounds bs = some (ts, rest) ↔ Stream 0 bs ts rest := by
  induction rounds generalizing bs ts with
  | zero =>
    obtain rfl : bs = [] := List.length_eq_zero_iff.mp (by omega)
    refine ⟨fun h => (by cases h), fun h => ?_⟩
    have := h.length_lt
    simp at this
  | succ rounds ih =>
    constructor
    · intro h
      obtain ⟨⟨⟨bfinal, us⟩, mid⟩, hblock, h⟩ := Option.bind_eq_some_iff.mp h
      have hblock' := readBlock_iff.mp hblock
      cases bfinal with
      | true =>
        cases h
        exact .final hblock'
      | false =>
        obtain ⟨⟨vs, mid'⟩, htail, h⟩ := Option.bind_eq_some_iff.mp h
        cases h
        have hlt := hblock'.length_lt
        exact .more hblock' rfl ((ih (by omega)).mp htail)
    · intro h
      cases h with
      | final hblock =>
        simp only [readStream, bind, readBlock_iff.mpr hblock, Option.bind_some, if_true]
      | more hblock _ htail =>
        have hlt := hblock.length_lt
        have htail' := (ih (by omega)).mpr htail
        simp only [readStream, bind, readBlock_iff.mpr hblock, Option.bind_some, htail',
          Bool.false_eq_true, if_false]

/-- The reference decoder reads the stream and expands it. -/
theorem inflate_iff {input out o : List UInt8} {e : ℕ} :
    inflate input out = some (e, o) ↔
      ∃ ts rest, Stream 0 (bits input) ts rest ∧ expand id out ts = some (out ++ o) ∧
        e + rest.length = 8 * input.length := by
  have hrounds : (bits input).length ≤ 8 * input.length := by simp
  constructor
  · intro h
    obtain ⟨⟨ts, rest⟩, hstream, h⟩ := Option.bind_eq_some_iff.mp h
    obtain ⟨res, hres, h⟩ := Option.bind_eq_some_iff.mp h
    cases h
    have hstream' := (readStream_iff hrounds).mp hstream
    have hlt := hstream'.length_lt
    rw [bits_length] at hlt
    obtain ⟨tail, rfl⟩ := expand_extends hres
    exact ⟨ts, rest, hstream', by rwa [List.drop_left], by omega⟩
  · rintro ⟨ts, rest, hstream, hres, he⟩
    simp only [inflate, bind, (readStream_iff hrounds).mpr hstream, Option.bind_some, hres,
      List.drop_left]
    congr 2
    omega

end Reference

end RustyRapidgzip
