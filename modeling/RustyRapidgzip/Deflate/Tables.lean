import Mathlib.Data.Nat.Notation

/-!
# Static tables

The constant tables of the DEFLATE format, indexed as the decoders index them.
-/

namespace RustyRapidgzip

/-- The order in which a dynamic header sends the lengths of the code-length code. -/
def CODE_LENGTH_ORDER : List ℕ :=
  [16, 17, 18, 0, 8, 7, 9, 6, 10, 5, 11, 4, 12, 3, 13, 2, 14, 1, 15]

/-- Length bases; index 0 is symbol 257. -/
def LENGTH_BASE : List ℕ :=
  [3, 4, 5, 6, 7, 8, 9, 10, 11, 13, 15, 17, 19, 23, 27, 31, 35, 43, 51, 59, 67, 83, 99, 115, 131,
    163, 195, 227, 258]

/-- The numbers of extra bits of the length symbols. -/
def LENGTH_EXTRA : List ℕ :=
  [0, 0, 0, 0, 0, 0, 0, 0, 1, 1, 1, 1, 2, 2, 2, 2, 3, 3, 3, 3, 4, 4, 4, 4, 5, 5, 5, 5, 0]

/-- Distance bases. -/
def DISTANCE_BASE : List ℕ :=
  [1, 2, 3, 4, 5, 7, 9, 13, 17, 25, 33, 49, 65, 97, 129, 193, 257, 385, 513, 769, 1025, 1537,
    2049, 3073, 4097, 6145, 8193, 12289, 16385, 24577]

/-- The numbers of extra bits of the distance symbols. -/
def DISTANCE_EXTRA : List ℕ :=
  [0, 0, 0, 0, 1, 1, 2, 2, 3, 3, 4, 4, 5, 5, 6, 6, 7, 7, 8, 8, 9, 9, 10, 10, 11, 11, 12, 12, 13,
    13]

/-- The literal/length code lengths of a fixed block. -/
def fixedLiteralLengths : List ℕ :=
  List.replicate 144 8 ++ List.replicate 112 9 ++ List.replicate 24 7 ++ List.replicate 8 8

/-- The distance code lengths of a fixed block. -/
def fixedDistanceLengths : List ℕ := List.replicate 30 5

end RustyRapidgzip
