import RustyRapidgzip.Deflate.Frame

/-!
# Streams token by token

A compressed block may be written down as its header and the words of its tokens.
-/

namespace RustyRapidgzip

open LsbBits Canonical Lz

namespace Reference

section Words

variable {lit dist : List ℕ} {word : List Bool} {t : Option Token}

/-- The word stands for a token, or for the end of the block, whatever follows it. -/
def IsWord (lit dist : List ℕ) (word : List Bool) (t : Option Token) : Prop :=
  ∀ rest, readToken lit dist (word ++ rest) = some (t, rest)

/-- Whatever follows may be one of eight short lists. -/
theorem isWord_of_short (hlit : Kraft lit 15) (hdist : Kraft dist 15)
    (h : ∀ k < 8, readToken lit dist (word ++ List.replicate k false) =
      some (t, List.replicate k false)) : IsWord lit dist word t := by
  intro rest
  obtain ⟨used, hused, hframe⟩ :=
    frames_readToken hlit hdist _ _ _ (h (rest.length % 8) (Nat.mod_lt _ (by decide)))
  rw [List.append_cancel_right_eq] at hused
  rw [hused]
  exact hframe rest (by rw [List.length_replicate, Nat.mod_mod])

/-- A body from the words of its tokens. -/
theorem body_of_words {room : ℕ} {last rest : List Bool} {words : List (List Bool × Token)}
    (hwords : ∀ w ∈ words, IsWord lit dist w.1 (some w.2)) (hlast : IsWord lit dist last none)
    (hroom : room ≤ (last ++ rest).length) :
    Body room lit dist ((words.map Prod.fst).flatten ++ (last ++ rest)) (words.map Prod.snd)
      rest := by
  induction words with
  | nil => exact .stop (hlast rest) hroom
  | cons w words ih =>
    rw [List.forall_mem_cons] at hwords
    rw [List.map_cons, List.flatten_cons, List.append_assoc]
    exact .next (hwords.1 _) (ih hwords.2)

/-- The header of a compressed block: its flag and its code lengths. -/
def readHeader (bs : List Bool) : Option ((ℕ × (List ℕ × List ℕ)) × List Bool) := do
  let (bfinal, bs) ← readBits 1 bs
  let (btype, bs) ← readBits 2 bs
  let (codes, bs) ← readCodes btype bs
  some ((bfinal, codes), bs)

/-- A compressed block is its header and its body. -/
theorem block_of_header {room bfinal : ℕ} {codes : List ℕ × List ℕ} {bs mid rest : List Bool}
    {ts : List Token} (hheader : readHeader bs = some ((bfinal, codes), mid))
    (hbody : Body room codes.1 codes.2 mid ts rest) : Block room bs (bfinal != 0) ts rest := by
  obtain ⟨⟨_, bs₁⟩, hfinal, hheader⟩ := Option.bind_eq_some_iff.mp hheader
  obtain ⟨⟨btype, bs₂⟩, htype, hheader⟩ := Option.bind_eq_some_iff.mp hheader
  obtain ⟨⟨_, bs₃⟩, hcodes, hheader⟩ := Option.bind_eq_some_iff.mp hheader
  cases hheader
  exact .compressed hfinal htype hcodes hbody

end Words

end Reference

end RustyRapidgzip
