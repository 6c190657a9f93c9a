import Mathlib.Algebra.Order.Ring.Int
import TransGC.RetryLoops
import TransGC.ThreadEvents

/-!
# Transaction IDs and shared counters under concurrent calls

`Universe::getNewTransID` and `TransNewGeneration::changeSharedIntByOne` are retry loops around
`Atomic::cmpxchg` on 32-bit integers. As long as fewer than 2^31 calls are made, no transaction ID
is returned twice and none is -1; a counter ends at its initial value plus the completed increases
minus the completed decreases.
-/
namespace SharedCounters
open RetryLoops TransitionRuns Function List

variable {Thread Pointer : Type}

/-- The shared integers: `_newTransID` and what the pointers point to. -/
inductive SharedInt (Pointer : Type)
  | newTransID
  | count (pointer : Pointer)
  deriving DecidableEq, Repr

inductive Op (Pointer : Type)
  | getNewTransID
  | changeSharedIntByOne (pointer : Pointer) (increase : Bool)
  deriving DecidableEq, Repr

/-- The new value that a call hands to `cmpxchg`. -/
def Op.newValue : Op Pointer → Int32 → Int32
  | .getNewTransID, old => old + 1
  | .changeSharedIntByOne _ true, count => count + 1
  | .changeSharedIntByOne _ false, count => count - 1

def Op.target : Op Pointer → SharedInt Pointer
  | .getNewTransID => .newTransID
  | .changeSharedIntByOne pointer _ => .count pointer

def loops (Pointer : Type) : Loop (SharedInt Pointer) (Op Pointer) Int32 :=
  ⟨Op.target, Op.newValue⟩

/-- `_newTransID` starts at -1; the counters start anywhere. -/
def startValues (counters : Pointer → Int32) : SharedInt Pointer → Int32
  | .newTransID => -1
  | .count pointer => counters pointer

abbrev Call (Thread Pointer : Type) := Completed Thread (Op Pointer) Int32

/-- What a completed call of `getNewTransID` returned: `oldTransID + 1`. -/
def Call.returnedID (call : Call Thread Pointer) : Option Int32 :=
  match call.op with
  | .getNewTransID => some (call.seen + 1)
  | .changeSharedIntByOne _ _ => none

def returnedIDs (history : List (Call Thread Pointer)) : List Int32 :=
  history.filterMap Call.returnedID

/-- The completed calls that change a counter by one, in one direction. -/
def changes [DecidableEq Pointer] (pointer : Pointer) (increase : Bool)
    (history : List (Call Thread Pointer)) : Nat :=
  history.countP fun call => call.op == .changeSharedIntByOne pointer increase

/-- The initial value plus the completed increases minus the completed decreases. -/
def expectedCount [DecidableEq Pointer] (counters : Pointer → Int32)
    (history : List (Call Thread Pointer)) (pointer : Pointer) : Int :=
  (counters pointer).toInt + changes pointer true history - changes pointer false history

/-- The call returns what the atomic draw of an ID returns. -/
theorem returnedID_eq_getNewTransID {call : Call Thread Pointer} {vm : ThreadEvents.VM}
    (draws : call.op = .getNewTransID) (same : call.seen.toInt = vm.newTransID) :
    call.returnedID.map Int32.toInt = some vm.getNewTransID := by
  simp [Call.returnedID, draws, ThreadEvents.VM.getNewTransID, ← same, Int32.toInt_add]

theorem returnedIDs_length_le (history : List (Call Thread Pointer)) :
    (returnedIDs history).length ≤ history.length :=
  length_filterMap_le _ _

section Counts

variable [DecidableEq Pointer] {history : List (Call Thread Pointer)} {thread : Thread}
  {seen : Int32} {pointer : Pointer}

theorem changes_snoc (increase : Bool) (op : Op Pointer) :
    changes pointer increase (history ++ [⟨thread, op, seen⟩]) =
      changes pointer increase history +
        if op = .changeSharedIntByOne pointer increase then 1 else 0 := by
  simp only [changes, countP_append, countP_singleton, beq_iff_eq]

theorem returnedIDs_snoc (op : Op Pointer) :
    returnedIDs (history ++ [⟨thread, op, seen⟩]) =
      returnedIDs history ++ if op = .getNewTransID then [seen + 1] else [] := by
  cases op <;> simp [returnedIDs, Call.returnedID]

end Counts

section Sequential

variable [DecidableEq Pointer] {counters : Pointer → Int32} {history : List (Call Thread Pointer)}
  {memory : SharedInt Pointer → Int32}

/-- The IDs are those that follow -1, and the last one is the value of `_newTransID`. -/
theorem sequential_returnedIDs
    (executed : Sequential (loops Pointer) (startValues counters) history memory) :
    returnedIDs history =
        (range (returnedIDs history).length).map (fun k => Int32.ofNat k) ∧
      memory .newTransID = Int32.ofNat (returnedIDs history).length - 1 := by
  induction executed with
  | nil => exact ⟨rfl, rfl⟩
  | @snoc history memory before thread op ih =>
    obtain ⟨ids, last⟩ := ih
    cases op with
    | getNewTransID =>
      have next : memory .newTransID + 1 = Int32.ofNat (returnedIDs history).length := by
        rw [last, Int32.sub_add_cancel]
      simp only [loops, Op.target, Op.newValue, returnedIDs_snoc, if_true, length_append,
        length_singleton, range_succ, map_append, map_singleton, next,
        update_self]
      refine ⟨congrArg (· ++ _) ids, ?_⟩
      rw [Int32.ofNat_add]
      exact (Int32.add_sub_cancel _ _).symm
    | changeSharedIntByOne pointer increase =>
      simp only [loops, Op.target, returnedIDs_snoc, reduceCtorEq, if_false, append_nil]
      refine ⟨ids, ?_⟩
      exact last

/-- A counter holds its initial value, changed by one for each completed call. -/
theorem sequential_count
    (executed : Sequential (loops Pointer) (startValues counters) history memory)
    (pointer : Pointer) :
    memory (.count pointer) = counters pointer +
      Int32.ofInt (changes pointer true history - changes pointer false history) := by
  induction executed with
  | nil => simp [startValues, changes]
  | @snoc history memory before thread op ih =>
    cases op with
    | getNewTransID =>
      simp only [loops, Op.target, changes_snoc, reduceCtorEq, if_false, Nat.add_zero]
      exact ih
    | changeSharedIntByOne changed increase =>
      simp only [loops, Op.target, changes_snoc, Op.changeSharedIntByOne.injEq]
      by_cases here : changed = pointer
      · subst here
        rw [update_self]
        cases increase with
        | true =>
          simp only [Op.newValue, ih, true_and, if_true, reduceCtorEq, if_false, Nat.add_zero]
          have shift : ((changes changed true history + 1 : Nat) - changes changed false history : Int)
              = changes changed true history - changes changed false history + 1 := by omega
          rw [shift, Int32.ofInt_add, ← Int32.add_assoc]
          rfl
        | false =>
          simp only [Op.newValue, ih, true_and, if_true, reduceCtorEq, if_false, Nat.add_zero]
          have shift : (changes changed true history - (changes changed false history + 1 : Nat) : Int)
              = changes changed true history - changes changed false history + -1 := by omega
          rw [shift, Int32.ofInt_add, ← Int32.add_assoc]
          exact Int32.sub_eq_add_neg _ _
      · rw [update_of_ne (by simpa using Ne.symm here)]
        simpa [here] using ih

end Sequential

variable [DecidableEq Thread] [DecidableEq Pointer] {counters : Pointer → Int32}
  {events : List (Event Thread (Op Pointer))}
  {final : State Thread (SharedInt Pointer) (Op Pointer) Int32}

/-- Under every interleaving of fewer than 2^31 calls the IDs returned are distinct and none is -1,
and each counter ends at its initial value plus increases minus decreases: exactly, if the sum is a
32-bit integer. -/
theorem shared_ints_linearise
    (reached : run (step (loops Pointer)) (initial (startValues counters)) events = some final)
    (few : calls events < 2 ^ 31) :
    (returnedIDs final.history).Nodup ∧ (-1) ∉ returnedIDs final.history ∧
      ∀ pointer, (final.memory (.count pointer)).toInt =
          (expectedCount counters final.history pointer).bmod (2 ^ 32) ∧
        (-2 ^ 31 ≤ expectedCount counters final.history pointer →
          expectedCount counters final.history pointer < 2 ^ 31 →
          (final.memory (.count pointer)).toInt =
            expectedCount counters final.history pointer) := by
  have executed := run_sequential reached
  have bound : (returnedIDs final.history).length < 2 ^ 31 :=
    Nat.lt_of_le_of_lt (returnedIDs_length_le final.history)
      (Nat.lt_of_le_of_lt (history_length_le_calls reached) few)
  have ids := (sequential_returnedIDs executed).1
  refine ⟨?_, ?_, fun pointer => ?_⟩
  · rw [ids]
    apply nodup_range.map_on
    intro left leftListed right rightListed same
    have := congrArg Int32.toInt same
    rw [mem_range] at leftListed rightListed
    rw [Int32.toInt_ofNat_of_lt (by omega), Int32.toInt_ofNat_of_lt (by omega)] at this
    omega
  · rw [ids]
    intro listed
    obtain ⟨k, inside, same⟩ := mem_map.mp listed
    have := congrArg Int32.toInt same
    rw [mem_range] at inside
    rw [Int32.toInt_ofNat_of_lt (by omega)] at this
    simp at this
  · have wrapped : (final.memory (.count pointer)).toInt =
        (expectedCount counters final.history pointer).bmod (2 ^ 32) := by
      rw [sequential_count executed pointer, Int32.toInt_add, Int32.toInt_ofInt]
      simp [expectedCount, Int.add_sub_assoc]
    refine ⟨wrapped, fun lower upper => ?_⟩
    rw [wrapped]
    exact Int.bmod_eq_of_le (by omega) (by omega)

/-- Two threads read the same ID; the later swap fails. In between a counter is decreased. -/
private def racingCalls : List (Event Nat (Op Unit)) :=
  [.call 0 .getNewTransID, .call 1 .getNewTransID, .call 2 (.changeSharedIntByOne () false),
    .read 0, .read 1, .read 2, .swap 1, .swap 0, .swap 2, .read 0, .swap 0]

theorem racing_calls_linearise :
    ∃ final, run (step (loops Unit)) (initial (startValues fun _ => 5)) racingCalls = some final ∧
      returnedIDs final.history = [0, 1] ∧ (returnedIDs final.history).Nodup ∧
      (final.memory (.count ())).toInt = 4 := by
  have ends : (run (step (loops Unit)) (initial (startValues fun _ => 5)) racingCalls).map
      (fun final => (returnedIDs final.history, expectedCount (fun _ => 5) final.history ())) =
        some ([0, 1], 4) := by decide +kernel
  obtain ⟨final, reached, results⟩ := Option.map_eq_some_iff.mp ends
  obtain ⟨ids, expected⟩ := Prod.mk.inj results
  obtain ⟨distinct, -, count⟩ := shared_ints_linearise reached (by decide)
  refine ⟨final, reached, ids, distinct, ?_⟩
  exact ((count ()).2 (by omega) (by omega)).trans expected

end SharedCounters
