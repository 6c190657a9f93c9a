import Mathlib.Data.Finset.Card
import Mathlib.Logic.Function.Basic
import TransGC.TransitionRuns

/-!
# Retry loops around a compare-and-swap

A call reads its cell, computes the new value from what it read and stores it by a
compare-and-swap; if the cell no longer holds the value read, the call starts again. Whatever the
order of the steps, the completed calls, in the order of their swaps, form a sequential execution.
A value that was changed and changed back does no harm: the new value depends on it alone.
-/
namespace RetryLoops
open TransitionRuns Function

variable {Thread Cell Op Value : Type}

/-- The cell that an operation changes, and how. -/
structure Loop (Cell Op Value : Type) where
  cell : Op → Cell
  update : Op → Value → Value

inductive Phase (Op Value : Type)
  | idle
  | calling (op : Op)
  | loaded (op : Op) (read : Value)
  deriving DecidableEq, Repr

/-- A call that returned: who made it, and the value that its swap replaced. -/
structure Completed (Thread Op Value : Type) where
  thread : Thread
  op : Op
  seen : Value
  deriving DecidableEq, Repr

structure State (Thread Cell Op Value : Type) where
  memory : Cell → Value
  phase : Thread → Phase Op Value
  history : List (Completed Thread Op Value)

inductive Event (Thread Op : Type)
  | call (thread : Thread) (op : Op)
  | read (thread : Thread)
  | swap (thread : Thread)
  deriving DecidableEq, Repr

def initial (memory : Cell → Value) : State Thread Cell Op Value :=
  ⟨memory, fun _ => .idle, []⟩

/-- How many calls a run begins. -/
def calls : List (Event Thread Op) → Nat
  | [] => 0
  | .call _ _ :: events => calls events + 1
  | _ :: events => calls events

theorem calls_cons (e : Event Thread Op) (events : List (Event Thread Op)) :
    calls (e :: events) = calls [e] + calls events := by
  cases e <;> simp [calls, Nat.add_comm]

section Steps

variable [DecidableEq Thread] [DecidableEq Cell] [DecidableEq Value] (loop : Loop Cell Op Value)

/-- A success completes the call, a failure sends it back to its read. -/
def compareAndSwap (s : State Thread Cell Op Value) (thread : Thread) (op : Op) (seen : Value) :
    State Thread Cell Op Value :=
  if s.memory (loop.cell op) = seen then
    { memory := update s.memory (loop.cell op) (loop.update op seen)
      phase := update s.phase thread .idle
      history := s.history ++ [⟨thread, op, seen⟩] }
  else { s with phase := update s.phase thread (.calling op) }

def step (s : State Thread Cell Op Value) :
    Event Thread Op → Option (State Thread Cell Op Value)
  | .call thread op =>
    match s.phase thread with
    | .idle => some { s with phase := update s.phase thread (.calling op) }
    | _ => none
  | .read thread =>
    match s.phase thread with
    | .calling op =>
      some { s with
        phase := update s.phase thread (.loaded op (s.memory (loop.cell op))) }
    | _ => none
  | .swap thread =>
    match s.phase thread with
    | .loaded op seen => some (compareAndSwap loop s thread op seen)
    | _ => none

/-- An execution of the operations one after the other, with the value that each one found. -/
inductive Sequential (start : Cell → Value) :
    List (Completed Thread Op Value) → (Cell → Value) → Prop
  | nil : Sequential start [] start
  | snoc {history : List (Completed Thread Op Value)} {memory : Cell → Value}
      (before : Sequential start history memory) (thread : Thread) (op : Op) :
      Sequential start (history ++ [⟨thread, op, memory (loop.cell op)⟩])
        (update memory (loop.cell op) (loop.update op (memory (loop.cell op))))

/-- The steps, by what they do to the phases and to the shared part. -/
inductive Effect (s : State Thread Cell Op Value) :
    Event Thread Op → State Thread Cell Op Value → Prop
  | called {thread : Thread} {op : Op} (idle : s.phase thread = .idle) :
      Effect s (.call thread op) { s with phase := update s.phase thread (.calling op) }
  | read {thread : Thread} {op : Op} (calling : s.phase thread = .calling op) :
      Effect s (.read thread)
        { s with phase := update s.phase thread (.loaded op (s.memory (loop.cell op))) }
  | swapped {thread : Thread} {op : Op}
      (loaded : s.phase thread = .loaded op (s.memory (loop.cell op))) :
      Effect s (.swap thread)
        { memory := update s.memory (loop.cell op)
            (loop.update op (s.memory (loop.cell op)))
          phase := update s.phase thread .idle
          history := s.history ++ [⟨thread, op, s.memory (loop.cell op)⟩] }
  | retried {thread : Thread} {op : Op} {seen : Value} (loaded : s.phase thread = .loaded op seen)
      (changed : s.memory (loop.cell op) ≠ seen) :
      Effect s (.swap thread) { s with phase := update s.phase thread (.calling op) }

end Steps

variable [DecidableEq Thread] [DecidableEq Cell] [DecidableEq Value] {loop : Loop Cell Op Value}
  {s t : State Thread Cell Op Value} {e : Event Thread Op} {events : List (Event Thread Op)}
  {start : Cell → Value}

theorem step_effect (stepped : step loop s e = some t) : Effect loop s e t := by
  cases e with
  | call thread op =>
    simp only [step] at stepped
    split at stepped
    · rename_i idle
      cases stepped
      exact .called idle
    · cases stepped
  | read thread =>
    simp only [step] at stepped
    split at stepped
    · rename_i op calling
      cases stepped
      exact .read calling
    · cases stepped
  | swap thread =>
    simp only [step] at stepped
    split at stepped
    · rename_i op seen loaded
      cases stepped
      unfold compareAndSwap
      split
      · rename_i same
        subst same
        exact .swapped loaded
      · rename_i changed
        exact .retried loaded changed
    · cases stepped

/-- The completed calls are a sequential execution that leaves the memory as it is. -/
theorem run_sequential (reached : run (step loop) (initial start) events = some t) :
    Sequential loop start t.history t.memory := by
  refine run_invariant (P := fun s => Sequential loop start s.history s.memory) ?_ .nil reached
  intro s e t before stepped
  cases step_effect stepped with
  | called idle => exact before
  | read calling => exact before
  | swapped loaded => exact before.snoc _ _
  | retried loaded changed => exact before

/-- The threads inside a call, and the completed calls, are as many as the calls begun. -/
def Accounted (s : State Thread Cell Op Value) (begun : Nat) : Prop :=
  ∃ active : Finset Thread, (∀ thread, thread ∈ active ↔ s.phase thread ≠ .idle) ∧
    active.card + s.history.length = begun

theorem accounted_step {begun : Nat} (accounted : Accounted s begun)
    (stepped : step loop s e = some t) : Accounted t (begun + calls [e]) := by
  obtain ⟨active, inside, total⟩ := accounted
  -- a step that keeps its thread inside the call
  have stays : ∀ {thread : Thread} {phase : Phase Op Value}, s.phase thread ≠ .idle →
      phase ≠ .idle → Accounted { s with phase := update s.phase thread phase } begun := by
    intro thread phase busy kept
    refine ⟨active, fun other => ?_, total⟩
    by_cases same : other = thread
    · subst same
      simp [inside, busy, kept]
    · simp [inside, update_of_ne same]
  cases step_effect stepped with
  | @called thread op idle =>
    refine ⟨insert thread active, fun other => ?_, ?_⟩
    · by_cases same : other = thread
      · simp [same]
      · simp [same, inside]
    · have outside : thread ∉ active := fun listed => (inside thread).mp listed idle
      rw [Finset.card_insert_of_notMem outside]
      simp only [calls]
      omega
  | read calling => exact stays (by simp [calling]) (by simp)
  | @swapped thread op loaded =>
    refine ⟨active.erase thread, fun other => ?_, ?_⟩
    · by_cases same : other = thread
      · simp [same]
      · simp [same, inside]
    · have listed : thread ∈ active := (inside thread).mpr (by simp [loaded])
      have fewer := Finset.card_erase_add_one listed
      simp only [List.length_append, List.length_singleton, calls]
      omega
  | retried loaded changed => exact stays (by simp [loaded]) (by simp)

theorem run_accounted {begun : Nat} (accounted : Accounted s begun)
    (reached : run (step loop) s events = some t) : Accounted t (begun + calls events) := by
  induction events generalizing s begun with
  | nil =>
    cases Option.some.inj reached
    exact accounted
  | cons e events ih =>
    obtain ⟨m, head, tail⟩ := run_cons_eq_some.mp reached
    rw [calls_cons, ← Nat.add_assoc]
    exact ih (accounted_step accounted head) tail

theorem history_length_le_calls (reached : run (step loop) (initial start) events = some t) :
    t.history.length ≤ calls events := by
  have fresh : Accounted (initial start : State Thread Cell Op Value) 0 :=
    ⟨∅, by simp [initial], rfl⟩
  obtain ⟨active, -, total⟩ := run_accounted fresh reached
  omega

end RetryLoops
