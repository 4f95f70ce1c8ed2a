import Mathlib.Algebra.BigOperators.Fin
import Mathlib.Tactic.Common

/-!
# A pool of workers between two channels

Workers take messages from a channel, and put what they make of them into a bounded one. A
worker stops when its channel is empty and has no sender left, or when nobody takes its
results any more. No message is lost as long as results are taken.
-/

namespace Threads

/-- A worker waits for a message, holds a result that it hands on, or has stopped. -/
inductive Worker (β : Type*) where
  | recv
  | send (b : β)
  | stopped

/-- A pool of workers with the channels before and behind it. -/
structure Pool (n : ℕ) (α β : Type*) where
  input : List α
  workers : Fin n → Worker β
  output : List β

/-- A worker holds a step of its own, and further ones for its result. -/
def Worker.weight {β : Type*} (k : ℕ) : Worker β → ℕ
  | .recv => 1
  | .send _ => k + 2
  | .stopped => 0

/-- The results that a worker holds. -/
def Worker.held {β : Type*} : Worker β → ℕ
  | .send _ => 1
  | _ => 0

section Weight

variable {β : Type*} (b : β) (k : ℕ)

/-- A worker that waits weighs one. -/
@[simp] theorem Worker.weight_recv : (Worker.recv : Worker β).weight k = 1 := rfl

/-- A worker with a result weighs two more than the result. -/
@[simp] theorem Worker.weight_send : (Worker.send b).weight k = k + 2 := rfl

/-- A worker that has stopped weighs nothing. -/
@[simp] theorem Worker.weight_stopped : (Worker.stopped : Worker β).weight k = 0 := rfl

/-- A worker that waits holds no result. -/
@[simp] theorem Worker.held_recv : (Worker.recv : Worker β).held = 0 := rfl

/-- A worker that sends holds one result. -/
@[simp] theorem Worker.held_send : (Worker.send b).held = 1 := rfl

/-- A worker that has stopped holds no result. -/
@[simp] theorem Worker.held_stopped : (Worker.stopped : Worker β).held = 0 := rfl

end Weight

namespace Pool

variable {n : ℕ} {α β : Type*}

/-- All workers wait, and nothing has been sent. -/
def start (n : ℕ) (α β : Type*) : Pool n α β := ⟨[], fun _ => .recv, []⟩

/-- Every worker has stopped. -/
def Stopped (p : Pool n α β) : Prop := ∀ i, p.workers i = .stopped

/-- Put a message into the channel before the pool. -/
def put (p : Pool n α β) (a : α) : Pool n α β := { p with input := p.input ++ [a] }

/-- Put a message into the channel behind the pool, past the workers. -/
def emit (p : Pool n α β) (b : β) : Pool n α β := { p with output := p.output ++ [b] }

/-- Leave only these messages in the channel behind the pool. -/
def leave (p : Pool n α β) (bs : List β) : Pool n α β := { p with output := bs }

/-- Change the state of one worker. -/
def setWorker (p : Pool n α β) (i : Fin n) (w : Worker β) : Pool n α β :=
  { p with workers := Function.update p.workers i w }

/-- A step of a worker. `work` relates a message to its possible results, `capacity` bounds the
channel behind the pool, `fed` says that the one before it has a sender, and `taken` that the
one behind it has a receiver. -/
inductive Step (work : α → β → Prop) (capacity : ℕ) (fed taken : Prop) :
    Pool n α β → Pool n α β → Prop
  | take {p : Pool n α β} {i : Fin n} {a : α} {as : List α} {b : β} (hw : p.workers i = .recv)
      (hinput : p.input = a :: as) (hwork : work a b) :
      Step work capacity fed taken p ({ p with input := as }.setWorker i (.send b))
  | close {p : Pool n α β} {i : Fin n} (hw : p.workers i = .recv) (hinput : p.input = [])
      (hfed : ¬fed) : Step work capacity fed taken p (p.setWorker i .stopped)
  | give {p : Pool n α β} {i : Fin n} {b : β} (hw : p.workers i = .send b) (htaken : taken)
      (hroom : p.output.length < capacity) :
      Step work capacity fed taken p ((p.emit b).setWorker i .recv)
  | drop {p : Pool n α β} {i : Fin n} {b : β} (hw : p.workers i = .send b) (htaken : ¬taken) :
      Step work capacity fed taken p (p.setWorker i .stopped)

variable {p p' : Pool n α β} {i j : Fin n} {w : Worker β} {a : α} {b : β} {bs : List β}

/-- A put appends to the input. -/
@[simp] theorem put_input : (p.put a).input = p.input ++ [a] := rfl

/-- A put leaves the workers as they are. -/
@[simp] theorem put_workers : (p.put a).workers = p.workers := rfl

/-- A put leaves the output as it is. -/
@[simp] theorem put_output : (p.put a).output = p.output := rfl

/-- A result that comes out leaves the input as it is. -/
@[simp] theorem emit_input : (p.emit b).input = p.input := rfl

/-- A result that comes out leaves the workers as they are. -/
@[simp] theorem emit_workers : (p.emit b).workers = p.workers := rfl

/-- A result that comes out is the last one of the output. -/
@[simp] theorem emit_output : (p.emit b).output = p.output ++ [b] := rfl

/-- A taken result leaves the input as it is. -/
@[simp] theorem leave_input : (p.leave bs).input = p.input := rfl

/-- A taken result leaves the workers as they are. -/
@[simp] theorem leave_workers : (p.leave bs).workers = p.workers := rfl

/-- A taken result leaves the rest of the output. -/
@[simp] theorem leave_output : (p.leave bs).output = bs := rfl

/-- A worker that moves on leaves the input as it is. -/
@[simp] theorem setWorker_input : (p.setWorker i w).input = p.input := rfl

/-- A worker that moves on leaves the output as it is. -/
@[simp] theorem setWorker_output : (p.setWorker i w).output = p.output := rfl

/-- A worker that moves on leaves the other workers as they are. -/
theorem setWorker_workers : (p.setWorker i w).workers = Function.update p.workers i w := rfl

/-- A worker is the changed one, or as before. -/
theorem setWorker_cases (p : Pool n α β) (i j : Fin n) (w : Worker β) :
    (j = i ∧ (p.setWorker i w).workers j = w) ∨
      (j ≠ i ∧ (p.setWorker i w).workers j = p.workers j) := by
  by_cases hj : j = i
  · subst hj
    exact Or.inl ⟨rfl, Function.update_self ..⟩
  · exact Or.inr ⟨hj, Function.update_of_ne hj ..⟩

section Messages

variable {work : α → β → Prop} {capacity : ℕ} {fed taken : Prop} {P : α → Prop} {Q : β → Prop}

/-- Every message in the pool has its property. -/
structure Every (P : α → Prop) (Q : β → Prop) (p : Pool n α β) : Prop where
  input : ∀ a ∈ p.input, P a
  workers : ∀ i b, p.workers i = .send b → Q b
  output : ∀ b ∈ p.output, Q b

/-- A pool that has just started holds nothing. -/
theorem every_start : Every P Q (start n α β) :=
  ⟨by simp [start], by simp [start], by simp [start]⟩

/-- A put keeps what holds of everything, for an element of which it holds. -/
theorem Every.put (h : p.Every P Q) (ha : P a) : (p.put a).Every P Q := by
  refine ⟨fun a' ha' => ?_, h.workers, h.output⟩
  rcases List.mem_append.mp ha' with ha' | ha'
  · exact h.input a' ha'
  · rwa [List.mem_singleton.mp ha']

/-- A result of which it holds keeps what holds of everything. -/
theorem Every.emit (h : p.Every P Q) (hb : Q b) : (p.emit b).Every P Q := by
  refine ⟨h.input, h.workers, fun b' hb' => ?_⟩
  rcases List.mem_append.mp hb' with hb' | hb'
  · exact h.output b' hb'
  · rwa [List.mem_singleton.mp hb']

/-- It holds of the result that is taken, and of all that is left. -/
theorem Every.leave (h : p.Every P Q) (houtput : p.output = b :: bs) :
    Q b ∧ (p.leave bs).Every P Q := by
  have hmem := h.output
  rw [houtput, List.forall_mem_cons] at hmem
  exact ⟨hmem.1, h.input, h.workers, hmem.2⟩

/-- It still holds where a worker moves on to a result of which it holds. -/
theorem Every.setWorker (h : p.Every P Q) (hw : ∀ b, w = .send b → Q b) :
    (p.setWorker i w).Every P Q := by
  refine ⟨h.input, fun j b hb => ?_, h.output⟩
  rcases setWorker_cases p i j w with ⟨-, hj⟩ | ⟨-, hj⟩
  · exact hw b (hj ▸ hb)
  · exact h.workers j b (hj ▸ hb)

/-- What holds of everything may be weakened. -/
theorem Every.mono {P' : α → Prop} {Q' : β → Prop} (h : p.Every P Q) (hP : ∀ a, P a → P' a)
    (hQ : ∀ b, Q b → Q' b) : p.Every P' Q' :=
  ⟨fun a ha => hP a (h.input a ha), fun i b hb => hQ b (h.workers i b hb),
    fun b hb => hQ b (h.output b hb)⟩

/-- The workers make good results of good messages. -/
theorem Step.every (hstep : Step work capacity fed taken p p')
    (hwork : ∀ a b, P a → work a b → Q b) (h : p.Every P Q) : p'.Every P Q := by
  cases hstep with
  | take hw hinput hab =>
    have hmem := h.input
    rw [hinput, List.forall_mem_cons] at hmem
    have hrest : Every P Q { p with input := _ } := ⟨hmem.2, h.workers, h.output⟩
    refine hrest.setWorker fun b hb => ?_
    cases hb
    exact hwork _ _ hmem.1 hab
  | close _ _ _ => exact h.setWorker (by simp)
  | give hw _ _ => exact (h.emit (h.workers _ _ hw)).setWorker (by simp)
  | drop _ _ => exact h.setWorker (by simp)

/-- A step stays one when more results are possible. -/
theorem Step.mono {work' : α → β → Prop} (h : Step work capacity fed taken p p')
    (hwork : ∀ a b, work a b → work' a b) : Step work' capacity fed taken p p' := by
  cases h with
  | take hw hinput hab => exact .take hw hinput (hwork _ _ hab)
  | close hw hinput hfed => exact .close hw hinput hfed
  | give hw htaken hroom => exact .give hw htaken hroom
  | drop hw htaken => exact .drop hw htaken

/-- Some message in the pool has its property. -/
def Carries (P : α → Prop) (Q : β → Prop) (p : Pool n α β) : Prop :=
  (∃ a ∈ p.input, P a) ∨ (∃ i b, p.workers i = .send b ∧ Q b) ∨ ∃ b ∈ p.output, Q b

/-- A pool carries what was just put into it. -/
theorem carries_put (ha : P a) : (p.put a).Carries P Q := Or.inl ⟨a, by simp, ha⟩

/-- A put loses nothing. -/
theorem Carries.put (h : p.Carries P Q) : (p.put a).Carries P Q := by
  rcases h with ⟨a', ha', hP⟩ | h | h
  · exact Or.inl ⟨a', by simp [ha'], hP⟩
  · exact Or.inr (Or.inl h)
  · exact Or.inr (Or.inr h)

/-- A pool carries the result that has just come out. -/
theorem carries_emit (hb : Q b) : (p.emit b).Carries P Q := Or.inr (Or.inr ⟨b, by simp, hb⟩)

/-- A result that comes out loses nothing. -/
theorem Carries.emit (h : p.Carries P Q) : (p.emit b).Carries P Q := by
  rcases h with h | h | ⟨b', hb', hQ⟩
  · exact Or.inl h
  · exact Or.inr (Or.inl h)
  · exact Or.inr (Or.inr ⟨b', by simp [hb'], hQ⟩)

/-- Only the result that is taken can leave the pool. -/
theorem Carries.leave (h : p.Carries P Q) (houtput : p.output = b :: bs) :
    Q b ∨ (p.leave bs).Carries P Q := by
  rcases h with h | h | ⟨b', hb', hQ⟩
  · exact Or.inr (Or.inl h)
  · exact Or.inr (Or.inr (Or.inl h))
  · rw [houtput] at hb'
    rcases List.mem_cons.mp hb' with rfl | hb'
    · exact Or.inl hQ
    · exact Or.inr (Or.inr (Or.inr ⟨b', hb', hQ⟩))

/-- Changing a worker that holds nothing loses nothing. -/
theorem Carries.setWorker (h : p.Carries P Q) (hw : ∀ b, p.workers i ≠ .send b) :
    (p.setWorker i w).Carries P Q := by
  rcases h with h | ⟨j, b, hj, hQ⟩ | h
  · exact Or.inl h
  · rcases setWorker_cases p i j w with ⟨rfl, -⟩ | ⟨-, hsame⟩
    · exact absurd hj (hw b)
    · exact Or.inr (Or.inl ⟨j, b, hsame.trans hj, hQ⟩)
  · exact Or.inr (Or.inr h)

/-- What a pool carries may be weakened. -/
theorem Carries.mono {P' : α → Prop} {Q' : β → Prop} (h : p.Carries P Q) (hP : ∀ a, P a → P' a)
    (hQ : ∀ b, Q b → Q' b) : p.Carries P' Q' := by
  rcases h with ⟨a, ha, h⟩ | ⟨i, b, hi, h⟩ | ⟨b, hb, h⟩
  · exact Or.inl ⟨a, ha, hP a h⟩
  · exact Or.inr (Or.inl ⟨i, b, hi, hQ b h⟩)
  · exact Or.inr (Or.inr ⟨b, hb, hQ b h⟩)

/-- As long as results are taken, no message is lost. -/
theorem Step.carries (hstep : Step work capacity fed taken p p') (htaken : taken)
    (hwork : ∀ a b, P a → work a b → Q b) (h : p.Carries P Q) : p'.Carries P Q := by
  cases hstep with
  | @take i a as b hw hinput hab =>
    have hrest : Q b ∨ Carries P Q { p with input := as } := by
      rcases h with ⟨a', ha', hP⟩ | h
      · rw [hinput] at ha'
        rcases List.mem_cons.mp ha' with rfl | ha'
        · exact Or.inl (hwork _ _ hP hab)
        · exact Or.inr (Or.inl ⟨a', ha', hP⟩)
      · exact Or.inr (Or.inr h)
    rcases hrest with hb | hrest
    · exact Or.inr (Or.inl ⟨i, b, Function.update_self .., hb⟩)
    · exact hrest.setWorker fun b' hb' => by simp [hw] at hb'
  | close hw _ _ => exact h.setWorker fun b' hb' => by rw [hw] at hb'; cases hb'
  | @give i b hw _ _ =>
    rcases h with h | ⟨j, b', hj, hQ⟩ | ⟨b', hb', hQ⟩
    · exact Or.inl h
    · rcases setWorker_cases (p.emit b) i j .recv with ⟨rfl, -⟩ | ⟨-, hsame⟩
      · rw [hw] at hj
        cases hj
        exact Or.inr (Or.inr ⟨b, by simp, hQ⟩)
      · exact Or.inr (Or.inl ⟨j, b', hsame.trans hj, hQ⟩)
    · exact Or.inr (Or.inr ⟨b', by simp [hb'], hQ⟩)
  | drop _ hlost => exact absurd htaken hlost

/-- A worker stops only when the channel before the pool is empty and has lost its sender. -/
def Drained (fed : Prop) (p : Pool n α β) : Prop :=
  ∀ i, p.workers i = .stopped → p.input = [] ∧ ¬fed

/-- No worker has stopped in a pool that has just started. -/
theorem drained_start : (start n α β).Drained fed := fun i hi => by cases hi

/-- With a sender, no worker has stopped. -/
theorem Drained.running (h : p.Drained fed) (hfed : fed) (i : Fin n) : p.workers i ≠ .stopped :=
  fun hi => (h i hi).2 hfed

/-- Before a worker has stopped, it does not matter why it will. -/
theorem Drained.of_running {fed' : Prop} (h : p.Drained fed) (hfed : fed) : p.Drained fed' :=
  fun i hi => absurd hi (h.running hfed i)

/-- When all workers have stopped and all results are taken, no message is left. -/
theorem Drained.not_carries (h : p.Drained fed) (hn : 0 < n) (hstopped : p.Stopped)
    (houtput : p.output = []) : ¬p.Carries P Q := by
  have hinput := (h ⟨0, hn⟩ (hstopped _)).1
  rintro (⟨a, ha, -⟩ | ⟨i, b, hb, -⟩ | ⟨b, hb, -⟩)
  · rw [hinput] at ha
    cases ha
  · rw [hstopped i] at hb
    cases hb
  · rw [houtput] at hb
    cases hb

/-- A worker stops only where nothing more is fed and the input is empty. -/
theorem Step.drained (hstep : Step work capacity fed taken p p') (htaken : taken)
    (h : p.Drained fed) : p'.Drained fed := by
  intro j hj
  cases hstep with
  | @take i a as b hw hinput hab =>
    rcases setWorker_cases { p with input := as } i j (.send b) with ⟨-, hsame⟩ | ⟨-, hsame⟩
    · rw [hsame] at hj
      cases hj
    · rw [hsame] at hj
      have hempty := (h j hj).1
      rw [hinput] at hempty
      cases hempty
  | close _ hinput hfed => exact ⟨hinput, hfed⟩
  | @give i b hw _ _ =>
    rcases setWorker_cases (p.emit b) i j .recv with ⟨-, hsame⟩ | ⟨-, hsame⟩
    · rw [hsame] at hj
      cases hj
    · rw [hsame] at hj
      exact h j hj
  | drop _ hlost => exact absurd htaken hlost

/-- Every worker has stopped or waits: for a message, or for room. -/
def Quiet (capacity : ℕ) (fed taken : Prop) (p : Pool n α β) : Prop :=
  ∀ i, p.workers i = .stopped ∨ (p.workers i = .recv ∧ p.input = [] ∧ fed) ∨
    ((∃ b, p.workers i = .send b) ∧ taken ∧ capacity ≤ p.output.length)

/-- A pool can step unless all its workers wait. -/
theorem step_or_quiet (hwork : ∀ a, ∃ b, work a b) (capacity : ℕ) (fed taken : Prop)
    (p : Pool n α β) : (∃ p', Step work capacity fed taken p p') ∨ p.Quiet capacity fed taken := by
  by_cases hquiet : p.Quiet capacity fed taken
  · exact Or.inr hquiet
  apply Or.inl
  obtain ⟨i, hi⟩ := not_forall.mp hquiet
  rw [not_or, not_or] at hi
  obtain ⟨hrunning, hrecv, hsend⟩ := hi
  cases hw : p.workers i with
  | stopped => exact absurd hw hrunning
  | recv =>
    cases hinput : p.input with
    | nil => exact ⟨_, .close hw hinput fun hfed => hrecv ⟨hw, hinput, hfed⟩⟩
    | cons a as =>
      obtain ⟨b, hb⟩ := hwork a
      exact ⟨_, .take hw hinput hb⟩
  | send b =>
    by_cases htaken : taken
    · exact ⟨_, .give hw htaken (Nat.lt_of_not_le fun hfull => hsend ⟨⟨b, hw⟩, htaken, hfull⟩)⟩
    · exact ⟨_, .drop hw htaken⟩

/-- In a quiet pool whose results have room or no receiver, no worker holds one. -/
theorem Quiet.idle (h : p.Quiet capacity fed taken) (hroom : taken → p.output.length < capacity)
    (i : Fin n) : p.workers i = .stopped ∨ (p.workers i = .recv ∧ p.input = [] ∧ fed) := by
  rcases h i with h | h | ⟨-, htaken, hfull⟩
  · exact Or.inl h
  · exact Or.inr h
  · have := hroom htaken
    omega

end Messages

section Weight

variable {work : α → β → Prop} {capacity : ℕ} {fed taken : Prop}

/-- The steps that are left: a result costs at most `k` of them behind the pool. -/
def weight (k : ℕ) (p : Pool n α β) : ℕ :=
  (k + 2) * p.input.length + ∑ i, Worker.weight k (p.workers i) + k * p.output.length

/-- Changing one worker changes its part of a sum over the workers. -/
theorem sum_setWorker (f : Worker β → ℕ) (p : Pool n α β) (i : Fin n) (w : Worker β) :
    ∑ j, f ((p.setWorker i w).workers j) + f (p.workers i) = ∑ j, f (p.workers j) + f w := by
  have hupdate : (fun j => f ((p.setWorker i w).workers j)) =
      Function.update (fun j => f (p.workers j)) i (f w) := by
    rw [setWorker_workers]
    exact Function.comp_update f p.workers i w
  rw [hupdate, Finset.sum_update_of_mem (Finset.mem_univ i), Finset.sdiff_singleton_eq_erase,
    ← Finset.add_sum_erase _ (fun j => f (p.workers j)) (Finset.mem_univ i)]
  omega

/-- Every step of a worker lowers the weight. -/
theorem Step.weight_lt (k : ℕ) (hstep : Step work capacity fed taken p p') :
    p'.weight k < p.weight k := by
  cases hstep with
  | @take i a as b hw hinput hab =>
    have hsum := sum_setWorker (Worker.weight k) { p with input := as } i (.send b)
    simp only [hw, Worker.weight_recv, Worker.weight_send] at hsum
    simp only [weight, setWorker_input, setWorker_output, hinput, List.length_cons, Nat.mul_succ]
    omega
  | @close i hw _ _ =>
    have hsum := sum_setWorker (Worker.weight k) p i .stopped
    simp only [hw, Worker.weight_recv, Worker.weight_stopped] at hsum
    simp only [weight, setWorker_input, setWorker_output]
    omega
  | @give i b hw _ _ =>
    have hsum := sum_setWorker (Worker.weight k) (p.emit b) i .recv
    simp only [emit_workers, hw, Worker.weight_recv, Worker.weight_send] at hsum
    simp only [weight, setWorker_input, setWorker_output, emit_input, emit_output,
      List.length_append, List.length_singleton, Nat.mul_succ]
    omega
  | @drop i b hw _ =>
    have hsum := sum_setWorker (Worker.weight k) p i .stopped
    simp only [hw, Worker.weight_send, Worker.weight_stopped] at hsum
    simp only [weight, setWorker_input, setWorker_output]
    omega

/-- A put adds the weight of an element. -/
theorem weight_put (k : ℕ) : (p.put a).weight k = p.weight k + (k + 2) := by
  simp only [weight, put_input, put_workers, put_output, List.length_append,
    List.length_singleton, Nat.mul_succ]
  omega

/-- A result that comes out adds its weight. -/
theorem weight_emit (k : ℕ) : (p.emit b).weight k = p.weight k + k := by
  simp only [weight, emit_input, emit_workers, emit_output, List.length_append,
    List.length_singleton, Nat.mul_succ]
  omega

/-- A result that is taken takes its weight along. -/
theorem weight_leave (k : ℕ) (houtput : p.output = b :: bs) :
    (p.leave bs).weight k + k = p.weight k := by
  simp only [weight, leave_input, leave_workers, leave_output, houtput, List.length_cons,
    Nat.mul_succ]
  omega

end Weight

section Load

variable {work : α → β → Prop} {capacity : ℕ} {fed taken : Prop}

/-- The messages in a pool. -/
def load (p : Pool n α β) : ℕ :=
  p.input.length + ∑ i, (p.workers i).held + p.output.length

/-- A pool keeps its messages; a result that nobody takes is dropped. -/
theorem Step.load_cases (hstep : Step work capacity fed taken p p') :
    p'.load = p.load ∨ (¬taken ∧ p'.load + 1 = p.load) := by
  cases hstep with
  | @take i a as b hw hinput _ =>
    have hsum := sum_setWorker Worker.held { p with input := as } i (.send b)
    simp only [hw, Worker.held_recv, Worker.held_send] at hsum
    simp only [load, setWorker_input, setWorker_output, hinput, List.length_cons]
    omega
  | @close i hw _ _ =>
    have hsum := sum_setWorker Worker.held p i .stopped
    simp only [hw, Worker.held_recv, Worker.held_stopped] at hsum
    simp only [load, setWorker_input, setWorker_output]
    omega
  | @give i b hw _ _ =>
    have hsum := sum_setWorker Worker.held (p.emit b) i .recv
    simp only [emit_workers, hw, Worker.held_recv, Worker.held_send] at hsum
    simp only [load, setWorker_input, setWorker_output, emit_input, emit_output,
      List.length_append, List.length_singleton]
    omega
  | @drop i b hw hlost =>
    have hsum := sum_setWorker Worker.held p i .stopped
    simp only [hw, Worker.held_send, Worker.held_stopped] at hsum
    simp only [load, setWorker_input, setWorker_output]
    exact Or.inr ⟨hlost, by omega⟩

/-- As long as results are taken, a pool keeps its messages. -/
theorem Step.load_eq (hstep : Step work capacity fed taken p p') (htaken : taken) :
    p'.load = p.load :=
  hstep.load_cases.resolve_right fun h => h.1 htaken

/-- A pool gains no messages by itself. -/
theorem Step.load_le (hstep : Step work capacity fed taken p p') : p'.load ≤ p.load := by
  rcases hstep.load_cases with h | ⟨-, h⟩ <;> omega

/-- A pool that has just started has no load. -/
theorem load_start : (start n α β).load = 0 := by
  have hsum : ∑ i : Fin n, ((start n α β).workers i).held = 0 := Finset.sum_eq_zero fun _ _ => rfl
  rw [load, hsum]
  rfl

/-- A result that comes out adds one to the load. -/
theorem load_emit : (p.emit b).load = p.load + 1 := by
  simp only [load, emit_input, emit_workers, emit_output, List.length_append, List.length_singleton]
  omega

/-- A result that is taken takes one from the load. -/
theorem load_leave (houtput : p.output = b :: bs) : (p.leave bs).load + 1 = p.load := by
  simp only [load, leave_input, leave_workers, leave_output, houtput, List.length_cons]
  omega

/-- A put adds one to the load. -/
theorem load_put : (p.put a).load = p.load + 1 := by
  simp only [load, put_input, put_workers, put_output, List.length_append, List.length_singleton]
  omega

/-- A pool without a worker that holds a result. -/
theorem load_eq (h : ∀ i b, p.workers i ≠ .send b) : p.load = p.input.length + p.output.length := by
  have hsum : ∑ i, (p.workers i).held = 0 := by
    refine Finset.sum_eq_zero fun i _ => ?_
    cases hw : p.workers i with
    | recv => rfl
    | send b => exact absurd hw (h i b)
    | stopped => rfl
  rw [load, hsum, Nat.add_zero]

/-- A pool with as many messages as wait behind it holds no other ones. -/
theorem load_le (h : p.load ≤ p.output.length) : p.input = [] ∧ ∀ i b, p.workers i ≠ .send b := by
  refine ⟨List.length_eq_zero_iff.mp ?_, fun i b hw => ?_⟩
  · rw [load] at h
    omega
  · have hsum := Finset.add_sum_erase Finset.univ (fun j => (p.workers j).held) (Finset.mem_univ i)
    simp only [hw, Worker.held_send] at hsum
    rw [load] at h
    omega

/-- The channel behind a pool does not overflow. -/
theorem Step.output_le (hstep : Step work capacity fed taken p p')
    (h : p.output.length ≤ capacity) : p'.output.length ≤ capacity := by
  cases hstep with
  | take _ _ _ => exact h
  | close _ _ _ => exact h
  | give _ _ hroom =>
    rw [setWorker_output, emit_output, List.length_append, List.length_singleton]
    exact hroom
  | drop _ _ => exact h

/-- No step of a worker takes a result from the output. -/
theorem Step.le_output (hstep : Step work capacity fed taken p p') :
    p.output.length ≤ p'.output.length := by
  cases hstep with
  | give _ _ _ =>
    rw [setWorker_output, emit_output, List.length_append]
    exact Nat.le_add_right _ _
  | _ => exact le_rfl

/-- A worker whose result has no room keeps it. -/
theorem Step.keeps_send (hstep : Step work capacity fed taken p p') (htaken : taken)
    (hfull : capacity ≤ p.output.length) (hw : p.workers i = .send b) :
    p'.workers i = .send b := by
  cases hstep with
  | @take j a as b' hrecv _ _ =>
    rcases setWorker_cases { p with input := as } j i (.send b') with ⟨rfl, -⟩ | ⟨-, hsame⟩
    · rw [hw] at hrecv
      cases hrecv
    · exact hsame.trans hw
  | @close j hrecv _ _ =>
    rcases setWorker_cases p j i .stopped with ⟨rfl, -⟩ | ⟨-, hsame⟩
    · rw [hw] at hrecv
      cases hrecv
    · exact hsame.trans hw
  | give _ _ hroom => omega
  | drop _ hlost => exact absurd htaken hlost

end Load

section OneWorker

variable {work : α → β → Prop} {capacity : ℕ}

/-- The only worker takes a message, and hands on what it makes of it. -/
theorem one_worker_passes (fed taken : Prop) (inv : Pool 1 α β → Prop) (hwork : work a b)
    (htaken : taken)
    (hroom : 0 < capacity) (hkeeps : ∀ p p', inv p → Step work capacity fed taken p p' → inv p')
    (h : inv ⟨[a], fun _ => .recv, []⟩) : inv ⟨[], fun _ => .recv, [b]⟩ := by
  have hsend : (Function.update (fun _ => .recv) 0 (.send b) : Fin 1 → Worker β) =
      fun _ => .send b := by
    funext i
    rw [Subsingleton.elim i 0, Function.update_self]
  have hrecv : (Function.update (fun _ => .send b) 0 .recv : Fin 1 → Worker β) =
      fun _ => .recv := by
    funext i
    rw [Subsingleton.elim i 0, Function.update_self]
  have htake := hkeeps _ _ h (.take (i := 0) rfl rfl hwork)
  simp only [setWorker, hsend] at htake
  have hgive := hkeeps _ _ htake (.give (i := 0) rfl htaken hroom)
  simpa only [setWorker, emit, hrecv, List.nil_append] using hgive

end OneWorker

end Pool

end Threads
