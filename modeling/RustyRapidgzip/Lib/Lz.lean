import Mathlib.Algebra.Ring.Nat
import Mathlib.Data.List.Basic
import Mathlib.Data.Option.Basic
import Mathlib.Tactic.Common
import Mathlib.Order.Basic

/-!
# Dictionary expansion

A token is a literal or a copy of earlier output. Expansion is defined over an
arbitrary alphabet, so one token list can be expanded over bytes, over bytes of
which some are unknown, or over symbolic cells. Expansion commutes with maps of
the alphabet, and it only looks at as much history as the distances reach.
-/

namespace Lz

/-- A literal byte, or `length` elements copied from `distance` elements back. -/
inductive Token where
  | lit (b : UInt8)
  | copy (length distance : ℕ)
  deriving DecidableEq, Repr

variable {α β : Type*}

/-- Append `n` elements, each the one found `distance` elements before the end. -/
def copyBack (out : List α) (distance : ℕ) : ℕ → List α
  | 0 => out
  | n + 1 => copyBack (out ++ out[out.length - distance]?.toList) distance n

/-- Expand one token; a copy must not reach before the first element. -/
def expandToken (lit : UInt8 → α) (out : List α) : Token → Option (List α)
  | .lit b => some (out ++ [lit b])
  | .copy n d => if 0 < d ∧ d ≤ out.length then some (copyBack out d n) else none

/-- Expand a token list after the history `out`. -/
def expand (lit : UInt8 → α) (out : List α) : List Token → Option (List α)
  | [] => some out
  | t :: ts => (expandToken lit out t).bind (fun out => expand lit out ts)

/-- The elements that a token appends. -/
def Token.size : Token → ℕ
  | .lit _ => 1
  | .copy n _ => n

/-- Copies are not empty and reach back at most `window` elements. -/
def Token.Bounded (window : ℕ) : Token → Prop
  | .lit _ => True
  | .copy n d => 0 < n ∧ 0 < d ∧ d ≤ window

/-! ## Copies -/

/-- The element a copy starts with. -/
theorem toList_getElem? {out : List α} {d : ℕ} (hd : 0 < d) (hle : d ≤ out.length) :
    out[out.length - d]?.toList = [out[out.length - d]] := by
  rw [List.getElem?_eq_getElem (by omega)]
  rfl

/-- One step of a copy inside the output. -/
theorem copyBack_succ {out : List α} {d : ℕ} (n : ℕ) (hd : 0 < d) (hle : d ≤ out.length) :
    copyBack out d (n + 1) = copyBack (out ++ [out[out.length - d]]) d n := by
  rw [copyBack, toList_getElem? hd hle]

/-- A copy appends its length. -/
theorem copyBack_length {out : List α} {d n : ℕ} (hd : 0 < d) (hle : d ≤ out.length) :
    (copyBack out d n).length = out.length + n := by
  induction n generalizing out with
  | zero => rfl
  | succ n ih =>
    rw [copyBack_succ n hd hle, ih (by simp; omega)]
    simp
    omega

/-- A copy leaves what precedes it. -/
theorem copyBack_extends (out : List α) (d n : ℕ) : out <+: copyBack out d n := by
  induction n generalizing out with
  | zero => exact List.prefix_rfl
  | succ n ih => exact List.IsPrefix.trans (List.prefix_append _ _) (ih _)

/-- Older history does not change a copy that stays inside the newer one. -/
theorem copyBack_append_left (x : List α) {out : List α} {d n : ℕ} (hd : 0 < d)
    (hle : d ≤ out.length) : copyBack (x ++ out) d n = x ++ copyBack out d n := by
  induction n generalizing out with
  | zero => rfl
  | succ n ih =>
    rw [copyBack_succ n hd hle, copyBack_succ n hd (by simp; omega)]
    have hidx : (x ++ out).length - d = x.length + (out.length - d) := by
      rw [List.length_append]
      omega
    have hlt : (x ++ out).length - d < (x ++ out).length := by
      simp only [List.length_append]
      omega
    have hget : (x ++ out)[(x ++ out).length - d] = out[out.length - d] := by
      simp only [hidx]
      rw [List.getElem_append_right (by omega)]
      simp
    rw [hget, List.append_assoc, ih (by simp; omega)]

/-- Copies commute with maps of the alphabet. -/
theorem map_copyBack (f : α → β) (out : List α) (d n : ℕ) :
    (copyBack out d n).map f = copyBack (out.map f) d n := by
  induction n generalizing out with
  | zero => rfl
  | succ n ih =>
    rw [copyBack, copyBack, ih, List.map_append, List.length_map, List.getElem?_map]
    cases out[out.length - d]? <;> rfl

/-- The element `j` of a copy is the element `distance` before it. -/
theorem getElem?_copyBack {out : List α} {d n j : ℕ} (hd : 0 < d) (hle : d ≤ out.length)
    (hj : j < n) :
    (copyBack out d n)[out.length + j]? = (copyBack out d n)[out.length + j - d]? := by
  induction n generalizing out j with
  | zero => omega
  | succ n ih =>
    rw [copyBack_succ n hd hle]
    cases j with
    | zero =>
      obtain ⟨tail, htail⟩ := copyBack_extends (out ++ [out[out.length - d]]) d n
      have hnew : (out ++ ([out[out.length - d]] ++ tail))[out.length]? =
          some out[out.length - d] := by simp
      have hold : (out ++ ([out[out.length - d]] ++ tail))[out.length - d]? =
          some out[out.length - d] := by
        rw [List.getElem?_append_left (by omega), List.getElem?_eq_getElem (by omega)]
      rw [← htail, Nat.add_zero, List.append_assoc, hnew, hold]
    | succ j =>
      have hstep := @ih (out ++ [out[out.length - d]]) j (by simp; omega) (by omega)
      rw [List.length_append, List.length_singleton] at hstep
      rw [show out.length + (j + 1) = out.length + 1 + j by omega]
      exact hstep

/-- A list that keeps the history, has the right length and repeats with the
distance is the copy. -/
theorem eq_copyBack {out result : List α} {d n : ℕ} (hd : 0 < d) (hle : d ≤ out.length)
    (hlen : result.length = out.length + n) (hpre : out <+: result)
    (hperiod : ∀ j < n, result[out.length + j]? = result[out.length + j - d]?) :
    result = copyBack out d n := by
  apply List.ext_getElem?
  intro i
  induction i using Nat.strongRecOn with
  | _ i ih =>
    by_cases hi : i < out.length
    · obtain ⟨t, rfl⟩ := hpre
      obtain ⟨t', ht'⟩ := copyBack_extends out d n
      rw [← ht', List.getElem?_append_left hi, List.getElem?_append_left hi]
    · by_cases hin : i < out.length + n
      · obtain ⟨j, rfl⟩ : ∃ j, i = out.length + j := ⟨i - out.length, by omega⟩
        rw [hperiod j (by omega), getElem?_copyBack hd hle (by omega)]
        exact ih (out.length + j - d) (by omega)
      · rw [List.getElem?_eq_none (by omega),
          List.getElem?_eq_none (by rw [copyBack_length hd hle]; omega)]

/-- A copy that does not overlap itself appends a slice of the history. -/
theorem copyBack_eq_slice {out : List α} {d n : ℕ} (hd : 0 < d) (hle : d ≤ out.length)
    (hn : n ≤ d) : copyBack out d n = out ++ (out.drop (out.length - d)).take n := by
  symm
  apply eq_copyBack hd hle
  · simp
    omega
  · exact List.prefix_append _ _
  · intro j hj
    rw [List.getElem?_append_right (by omega), List.getElem?_append_left (by omega),
      List.getElem?_take, List.getElem?_drop, if_pos (by omega)]
    congr 1
    omega

/-- A copy from distance one repeats the last element. -/
theorem copyBack_eq_replicate {out : List α} {n : ℕ} (hle : 1 ≤ out.length) :
    copyBack out 1 n = out ++ List.replicate n (out[out.length - 1]) := by
  symm
  apply eq_copyBack Nat.one_pos hle
  · simp
  · exact List.prefix_append _ _
  · intro j hj
    rw [List.getElem?_append_right (by omega), Nat.add_sub_cancel_left, List.getElem?_replicate,
      if_pos hj]
    cases j with
    | zero =>
      rw [List.getElem?_append_left (by omega), List.getElem?_eq_getElem (by omega)]
      rfl
    | succ j =>
      rw [show out.length + (j + 1) - 1 = out.length + j by omega,
        List.getElem?_append_right (by omega), Nat.add_sub_cancel_left, List.getElem?_replicate,
        if_pos (by omega)]

/-! ## Expansion -/

/-- No token leaves the output as it is. -/
@[simp] theorem expand_nil (lit : UInt8 → α) (out : List α) : expand lit out [] = some out := rfl

/-- The first token expands before the others. -/
theorem expand_cons (lit : UInt8 → α) (out : List α) (t : Token) (ts : List Token) :
    expand lit out (t :: ts) = (expandToken lit out t).bind (fun out => expand lit out ts) := rfl

/-- Expanding a concatenation expands its parts one after the other. -/
theorem expand_append (lit : UInt8 → α) (out : List α) (ts us : List Token) :
    expand lit out (ts ++ us) = (expand lit out ts).bind (fun out => expand lit out us) := by
  induction ts generalizing out with
  | nil => rfl
  | cons t ts ih =>
    rw [List.cons_append, expand_cons, expand_cons]
    cases expandToken lit out t with
    | none => rfl
    | some out' => exact ih out'

/-- Literals are appended as they are. -/
theorem expand_lits (lit : UInt8 → α) (out : List α) (data : List UInt8) :
    expand lit out (data.map Token.lit) = some (out ++ data.map lit) := by
  induction data generalizing out with
  | nil => simp
  | cons b data ih =>
    rw [List.map_cons, expand_cons, expandToken, Option.bind_some, ih, List.map_cons,
      List.append_assoc, List.singleton_append]

/-- A token only appends. -/
theorem expandToken_extends {lit : UInt8 → α} {out out' : List α} {t : Token}
    (h : expandToken lit out t = some out') : out <+: out' := by
  cases t with
  | lit b =>
    simp only [expandToken, Option.some.injEq] at h
    exact h ▸ List.prefix_append _ _
  | copy n d =>
    simp only [expandToken, Option.ite_none_right_eq_some, Option.some.injEq] at h
    exact h.2 ▸ copyBack_extends out d n

/-- Expansion only appends. -/
theorem expand_extends {lit : UInt8 → α} {out out' : List α} {ts : List Token}
    (h : expand lit out ts = some out') : out <+: out' := by
  induction ts generalizing out with
  | nil =>
    simp only [expand_nil, Option.some.injEq] at h
    exact h ▸ List.prefix_rfl
  | cons t ts ih =>
    rw [expand_cons, Option.bind_eq_some_iff] at h
    obtain ⟨mid, ht, hts⟩ := h
    exact (expandToken_extends ht).trans (ih hts)

/-- A token appends as many elements as it stands for. -/
theorem expandToken_length {lit : UInt8 → α} {out out' : List α} {t : Token}
    (h : expandToken lit out t = some out') : out'.length = out.length + t.size := by
  cases t with
  | lit b =>
    simp only [expandToken, Option.some.injEq] at h
    subst h
    exact List.length_append
  | copy n d =>
    simp only [expandToken, Option.ite_none_right_eq_some, Option.some.injEq] at h
    obtain ⟨⟨hd, hle⟩, rfl⟩ := h
    exact copyBack_length hd hle

/-- Tokens of a bounded size expand to a bounded length. -/
theorem expand_length_le {m : ℕ} {lit : UInt8 → α} {out out' : List α} {ts : List Token}
    (h : expand lit out ts = some out') (hsize : ∀ t ∈ ts, t.size ≤ m) :
    out'.length ≤ out.length + m * ts.length := by
  induction ts generalizing out with
  | nil =>
    simp only [expand_nil, Option.some.injEq] at h
    exact h ▸ Nat.le_add_right _ _
  | cons t ts ih =>
    rw [expand_cons, Option.bind_eq_some_iff] at h
    obtain ⟨mid, ht, hts⟩ := h
    rw [List.forall_mem_cons] at hsize
    have hmid := expandToken_length ht
    have hrest := ih hts hsize.2
    have hfirst := hsize.1
    rw [List.length_cons, Nat.mul_succ]
    omega

/-- Expansion commutes with maps of the alphabet. -/
theorem map_expand (f : α → β) (lit : UInt8 → α) (out : List α) (ts : List Token) :
    (expand lit out ts).map (List.map f) = expand (fun b => f (lit b)) (out.map f) ts := by
  induction ts generalizing out with
  | nil => rfl
  | cons t ts ih =>
    rw [expand_cons, expand_cons]
    cases t with
    | lit b =>
      simp only [expandToken, Option.bind_some, ih, List.map_append, List.map_cons, List.map_nil]
    | copy n d =>
      by_cases hd : 0 < d ∧ d ≤ out.length
      · have hd' : 0 < d ∧ d ≤ (out.map f).length := by simpa using hd
        simp only [expandToken, if_pos hd, if_pos hd', Option.bind_some, ih, map_copyBack]
      · have hd' : ¬(0 < d ∧ d ≤ (out.map f).length) := by simpa using hd
        simp [expandToken, if_neg hd]

/-- Older history does not change a successful expansion. -/
theorem expand_append_left (x : List α) {lit : UInt8 → α} {out out' : List α} {ts : List Token}
    (h : expand lit out ts = some out') : expand lit (x ++ out) ts = some (x ++ out') := by
  induction ts generalizing out with
  | nil =>
    simp only [expand_nil, Option.some.injEq] at h ⊢
    rw [h]
  | cons t ts ih =>
    rw [expand_cons, Option.bind_eq_some_iff] at h ⊢
    obtain ⟨mid, ht, hts⟩ := h
    refine ⟨x ++ mid, ?_, ih hts⟩
    cases t with
    | lit b =>
      simp only [expandToken, Option.some.injEq] at ht ⊢
      rw [← ht, List.append_assoc]
    | copy n d =>
      simp only [expandToken, Option.ite_none_right_eq_some, Option.some.injEq] at ht ⊢
      refine ⟨⟨ht.1.1, by simp; omega⟩, ?_⟩
      rw [← ht.2, copyBack_append_left x ht.1.1 ht.1.2]

/-- Only the last `window` elements of the history matter. -/
theorem expand_window {window : ℕ} (x : List α) {lit : UInt8 → α} {out out' : List α}
    {ts : List Token} (hts : ∀ t ∈ ts, t.Bounded window) (hout : window ≤ out.length)
    (h : expand lit (x ++ out) ts = some out') :
    ∃ out'', out' = x ++ out'' ∧ expand lit out ts = some out'' := by
  induction ts generalizing out with
  | nil =>
    simp only [expand_nil, Option.some.injEq] at h
    exact ⟨out, h.symm, rfl⟩
  | cons t ts ih =>
    have hrest := fun u hu => hts u (List.mem_cons_of_mem t hu)
    have hbound := hts t List.mem_cons_self
    rw [expand_cons, Option.bind_eq_some_iff] at h
    obtain ⟨mid, ht, hrun⟩ := h
    obtain ⟨mid', rfl, ht', hlen⟩ :
        ∃ mid', mid = x ++ mid' ∧ expandToken lit out t = some mid' ∧ window ≤ mid'.length := by
      cases t with
      | lit b =>
        simp only [expandToken, Option.some.injEq] at ht
        exact ⟨out ++ [lit b], by rw [← ht, List.append_assoc], rfl, by simp; omega⟩
      | copy n d =>
        obtain ⟨-, hd, hdw⟩ := hbound
        have hle : d ≤ out.length := by omega
        simp only [expandToken, Option.ite_none_right_eq_some, Option.some.injEq] at ht
        refine ⟨copyBack out d n, ?_, by simp [expandToken, hd, hle], ?_⟩
        · rw [← ht.2, copyBack_append_left x hd hle]
        · rw [copyBack_length hd hle]
          omega
    obtain ⟨out'', rfl, hout''⟩ := ih hrest hlen hrun
    exact ⟨out'', rfl, by rw [expand_cons, ht', Option.bind_some, hout'']⟩

/-- Behind enough history, every expansion succeeds. -/
theorem expand_isSome (lit : UInt8 → α) {window : ℕ} {out : List α} {ts : List Token}
    (hts : ∀ t ∈ ts, t.Bounded window) (hout : window ≤ out.length) :
    ∃ res, expand lit out ts = some res := by
  induction ts generalizing out with
  | nil => exact ⟨out, rfl⟩
  | cons t ts ih =>
    have hbound := hts t List.mem_cons_self
    obtain ⟨mid, ht⟩ : ∃ mid, expandToken lit out t = some mid := by
      cases t with
      | lit b => exact ⟨_, rfl⟩
      | copy n d =>
        obtain ⟨-, hd, hdw⟩ := hbound
        exact ⟨copyBack out d n, if_pos ⟨hd, by omega⟩⟩
    have hlen := (expandToken_extends ht).length_le
    obtain ⟨res, hres⟩ := ih (fun u hu => hts u (List.mem_cons_of_mem t hu))
      (by omega : _ ≤ mid.length)
    exact ⟨res, by rw [expand_cons, ht, Option.bind_some, hres]⟩

/-- A copy has no elements but those of the output. -/
theorem copyBack_forall {P : α → Prop} {out : List α} (hout : ∀ a ∈ out, P a) (d n : ℕ) :
    ∀ a ∈ copyBack out d n, P a := by
  induction n generalizing out with
  | zero => exact hout
  | succ n ih =>
    refine ih fun a ha => ?_
    rcases List.mem_append.mp ha with hold | hnew
    · exact hout a hold
    · rw [Option.mem_toList] at hnew
      exact hout a (List.mem_of_getElem? hnew)

/-- Expansion keeps to the elements of the history and the literals. -/
theorem expand_forall {P : α → Prop} {lit : UInt8 → α} (hlit : ∀ b, P (lit b)) {out res : List α}
    (hout : ∀ a ∈ out, P a) {ts : List Token} (h : expand lit out ts = some res) :
    ∀ a ∈ res, P a := by
  induction ts generalizing out with
  | nil =>
    cases h
    exact hout
  | cons t ts ih =>
    rw [expand_cons, Option.bind_eq_some_iff] at h
    obtain ⟨mid, ht, hrun⟩ := h
    refine ih ?_ hrun
    cases t with
    | lit b =>
      cases ht
      intro a ha
      rcases List.mem_append.mp ha with hold | hnew
      · exact hout a hold
      · rw [List.mem_singleton] at hnew
        exact hnew ▸ hlit b
    | copy n d =>
      simp only [expandToken, Option.ite_none_right_eq_some, Option.some.injEq] at ht
      exact ht.2 ▸ copyBack_forall hout d n

/-! ## Unknown history -/

/-- A history of known elements behind `k` unknown ones. -/
def padded (k : ℕ) (out : List α) : List (Option α) := List.replicate k none ++ out.map some

/-- The padding adds its length. -/
@[simp] theorem padded_length (k : ℕ) (out : List α) : (padded k out).length = k + out.length := by
  simp [padded]

/-- A successful expansion succeeds behind unknown history, with known results. -/
theorem expand_padded (k : ℕ) {lit : UInt8 → α} {out out' : List α} {ts : List Token}
    (h : expand lit out ts = some out') :
    expand (fun b => some (lit b)) (padded k out) ts = some (padded k out') := by
  have hmap := map_expand some lit out ts
  rw [h] at hmap
  exact expand_append_left _ hmap.symm

/-- An expansion behind unknown history that leaves no unknown element in the
output never reached the unknown history. -/
theorem expand_of_padded {window k : ℕ} {lit : UInt8 → α} {out result : List α}
    {ts : List Token} (hts : ∀ t ∈ ts, t.Bounded window)
    (h : expand (fun b => some (lit b)) (padded k out) ts = some (padded k result)) :
    expand lit out ts = some result := by
  induction ts generalizing out with
  | nil =>
    simp only [expand_nil, Option.some.injEq, padded, List.append_cancel_left_eq] at h
    rw [expand_nil, List.map_injective_iff.2 (Option.some_injective α) h]
  | cons t ts ih =>
    have hrest := fun u hu => hts u (List.mem_cons_of_mem t hu)
    have hbound := hts t List.mem_cons_self
    rw [expand_cons, Option.bind_eq_some_iff] at h
    obtain ⟨mid, ht, hrun⟩ := h
    rw [expand_cons, Option.bind_eq_some_iff]
    cases t with
    | lit b =>
      simp only [expandToken, Option.some.injEq] at ht
      refine ⟨out ++ [lit b], rfl, ih hrest ?_⟩
      rw [← hrun, ← ht]
      simp [padded]
    | copy n d =>
      obtain ⟨hn, hd, -⟩ := hbound
      simp only [expandToken, Option.ite_none_right_eq_some, Option.some.injEq] at ht
      obtain ⟨⟨-, hdle⟩, rfl⟩ := ht
      rw [padded_length] at hdle
      by_cases hle : d ≤ out.length
      · refine ⟨copyBack out d n, by simp [expandToken, hd, hle], ih hrest ?_⟩
        rw [← hrun, padded, map_copyBack, ← copyBack_append_left _ hd (by simpa using hle)]
        rfl
      · -- The first element of the copy comes from the unknown history.
        exfalso
        have hd' : d ≤ (padded k out).length := by rw [padded_length]; exact hdle
        obtain ⟨tail, htail⟩ := expand_extends hrun
        have hfirst := getElem?_copyBack (j := 0) hd hd' hn
        rw [Nat.add_zero] at hfirst
        have hsource : (copyBack (padded k out) d n)[(padded k out).length - d]? =
            some none := by
          obtain ⟨rest, hrest'⟩ := copyBack_extends (padded k out) d n
          rw [← hrest', List.getElem?_append_left (by rw [padded_length] at hd' ⊢; omega),
            padded_length,
            padded, List.getElem?_append_left (by rw [List.length_replicate]; omega),
            List.getElem?_replicate, if_pos (by omega)]
        have hcopy : (padded k out).length < (copyBack (padded k out) d n).length := by
          rw [copyBack_length hd hd']
          omega
        have hnone : (padded k result)[k + out.length]? = some none := by
          rw [← htail, List.getElem?_append_left (by rwa [padded_length] at hcopy)]
          rw [← padded_length, hfirst, hsource]
        rw [padded, List.getElem?_append_right (by simp)] at hnone
        simp at hnone

/-! ## Outputs of one byte -/

/-- A literal of the byte, or a copy at distance one. -/
def Uniform (b : UInt8) (t : Token) : Prop := t = .lit b ∨ ∃ n, t = .copy n 1

/-- After a history of one byte, such tokens make more of it. -/
theorem expand_uniform {b : UInt8} {ts : List Token} (hts : ∀ t ∈ ts, Uniform b t) {m : ℕ}
    (hm : 0 < m) :
    expand id (List.replicate m b) ts = some (List.replicate (m + (ts.map Token.size).sum) b) := by
  induction ts generalizing m with
  | nil => rfl
  | cons t ts ih =>
    rw [List.forall_mem_cons] at hts
    have htoken : expandToken id (List.replicate m b) t = some (List.replicate (m + t.size) b) := by
      rcases hts.1 with rfl | ⟨n, rfl⟩
      · rw [expandToken, Token.size, List.replicate_succ']
        rfl
      · have hle : 1 ≤ (List.replicate m b).length := by rwa [List.length_replicate]
        rw [expandToken, if_pos ⟨Nat.one_pos, hle⟩, copyBack_eq_replicate hle,
          List.getElem_replicate, ← List.replicate_add]
        rfl
    rw [expand_cons, htoken]
    simp only [Option.bind_some]
    rw [ih hts.2 (by omega), List.map_cons, List.sum_cons, Nat.add_assoc]

/-- The output that starts with such a literal. -/
theorem expand_lit_uniform {b : UInt8} {ts : List Token} {n : ℕ} (hts : ∀ t ∈ ts, Uniform b t)
    (hn : 1 + (ts.map Token.size).sum = n) :
    expand id [] (.lit b :: ts) = some (List.replicate n b) := by
  subst hn
  exact expand_uniform hts Nat.one_pos

end Lz
