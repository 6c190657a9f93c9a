import Mathlib.Data.List.Basic
import TransGC.TransitionRuns

/-!
# The table of transaction edens

`TransNewGeneration` keeps an array of `MAX_TRANSEDEN` transaction edens and three hand-maintained
counters. This file embeds the operations on that table. An eden is an `EdenSpace`; the table
only ever resets its top, so the space is the list of the objects below `top()`. Whether a
collection attempt is safe and whether a promotion failed are arguments here.
-/
namespace EdenTable
open List Option

inductive State where
  | available
  | assigned
  | full
  | collectable
  | collecting
  | other
  deriving DecidableEq, Repr

structure TransEden where
  threadCount : Int
  transID : Int
  overflowed : Bool
  trained : Bool
  state : State
  objects : List Nat
  deriving DecidableEq, Repr

def TransEden.new : TransEden where
  threadCount := 0
  transID := -1
  overflowed := false
  trained := false
  state := .available
  objects := []

/-- `TransEden::reset` leaves `trained` and the space itself alone. -/
def TransEden.reset (eden : TransEden) : TransEden :=
  { eden with state := .available, transID := -1, threadCount := 0, overflowed := false }

def TransEden.clear (eden : TransEden) : TransEden := { eden with objects := [] }

structure TransNewGeneration where
  transEdens : List TransEden
  assignedCount : Int
  availableCount : Int
  collectableCount : Int
  deriving DecidableEq, Repr

namespace TransNewGeneration

def initial (maxTransEden : Nat) : TransNewGeneration where
  transEdens := replicate maxTransEden TransEden.new
  assignedCount := 0
  availableCount := maxTransEden
  collectableCount := 0

def maxTransEden (gen : TransNewGeneration) : Nat := gen.transEdens.length

/-- The null pointer for an index outside the array is `none`. -/
def getTransEden (gen : TransNewGeneration) (id : Int) : Option TransEden :=
  if id < gen.maxTransEden ∧ -1 < id then gen.transEdens[id.toNat]? else none

def setTransEden (gen : TransNewGeneration) (id : Nat) (eden : TransEden) : TransNewGeneration :=
  { gen with transEdens := gen.transEdens.set id eden }

def resetTransEden (gen : TransNewGeneration) (id : Int) : TransNewGeneration :=
  match gen.getTransEden id with
  | some eden =>
    { gen.setTransEden id.toNat eden.reset with
      assignedCount := gen.assignedCount - 1
      availableCount := gen.availableCount + 1 }
  | none => gen

def resetTransEdens (gen : TransNewGeneration) : TransNewGeneration where
  transEdens := gen.transEdens.map TransEden.reset
  assignedCount := 0
  availableCount := gen.maxTransEden
  collectableCount := 0

def clearTransEden (gen : TransNewGeneration) (id : Int) : TransNewGeneration :=
  match gen.getTransEden id with
  | some eden => gen.setTransEden id.toNat eden.clear
  | none => gen

/-- The eden is compared with the ending transaction; its state is not looked at. -/
def setTransEdenCollectable (gen : TransNewGeneration) (id transID threadCount : Int) :
    TransNewGeneration :=
  match gen.getTransEden id with
  | some eden =>
    if eden.transID = transID then
      { gen.setTransEden id.toNat { eden with state := .collectable, threadCount := threadCount } with
        collectableCount := gen.collectableCount + 1 }
    else gen
  | none => gen

end TransNewGeneration

structure JavaThread where
  transID : Int
  transEdenID : Int
  pooled : Bool
  monitorFilter : Bool
  threadCountsInTransaction : Int
  deriving DecidableEq, Repr

def JavaThread.hasValidTransID (thread : JavaThread) : Bool := thread.transID != -1

inductive Thread where
  | java (thread : JavaThread)
  | vm
  deriving DecidableEq, Repr

/-- `eden` is the index of the returned eden, and `none` the null pointer. -/
structure Allocated where
  eden : Option Nat
  thread : Thread
  gen : TransNewGeneration
  deriving DecidableEq, Repr

namespace TransNewGeneration

def searchTransID (gen : TransNewGeneration) (tid : Int) : Option Nat :=
  gen.transEdens.findIdx? fun eden => eden.transID = tid

def searchAvailable (gen : TransNewGeneration) : Option Nat :=
  if gen.assignedCount < gen.maxTransEden then
    gen.transEdens.findIdx? fun eden => eden.state = .available
  else none

def assignTransEden (gen : TransNewGeneration) (trainingDone : Bool) (tid : Int) (id : Nat)
    (eden : TransEden) : TransNewGeneration :=
  { gen.setTransEden id
      { eden with state := .assigned, transID := tid, trained := eden.trained || trainingDone } with
    assignedCount := gen.assignedCount + 1
    availableCount := gen.availableCount - 1 }

/-- `getTransEdenToAllocate_nolock` for a transaction thread without a cached eden. -/
def searchOrAssign (gen : TransNewGeneration) (trainingDone : Bool) (thread : JavaThread) :
    Allocated :=
  match gen.searchTransID thread.transID with
  | some id => ⟨some id, .java { thread with transEdenID := id }, gen⟩
  | none =>
    match gen.searchAvailable with
    | some id =>
      match gen.transEdens[id]? with
      | some eden =>
        ⟨some id, .java { thread with transEdenID := id },
          gen.assignTransEden trainingDone thread.transID id eden⟩
      | none => ⟨none, .java { thread with transID := -1 }, gen⟩
    | none => ⟨none, .java { thread with transID := -1 }, gen⟩

/-- The cached index is not checked; one outside the table is a null dereference. -/
def getTransEdenToAllocateNolock (gen : TransNewGeneration)
    (isFoundTCPAcceptThread trainingDone : Bool) (current : Thread) : Option Allocated :=
  if isFoundTCPAcceptThread = false then some ⟨none, current, gen⟩
  else
    match current with
    | .vm => some ⟨none, current, gen⟩
    | .java thread =>
      if thread.transID = -1 then some ⟨none, current, gen⟩
      else if thread.transEdenID = -1 then some (gen.searchOrAssign trainingDone thread)
      else
        (gen.getTransEden thread.transEdenID).map fun eden =>
          if thread.transID = eden.transID ∧ eden.state = .assigned then
            ⟨some thread.transEdenID.toNat, current, gen⟩
          else ⟨none, .java { thread with transEdenID := -1, transID := -1 }, gen⟩

/-- One round of the loop of `collectResettableTransEden`. -/
def resetResettable (done : Bool × TransNewGeneration) (id : Nat) : Bool × TransNewGeneration :=
  match done.2.transEdens[id]? with
  | some eden =>
    if eden.state = .collectable ∧ eden.trained = true then
      (true, ({ done.2 with collectableCount := done.2.collectableCount - 1 }.resetTransEden
        id).clearTransEden id)
    else done
  | none => done

def collectResettableTransEden (gen : TransNewGeneration)
    (trainingDone pretenure avoidCollectTrained : Bool) : Bool × TransNewGeneration :=
  if trainingDone = false ∨ pretenure = false ∨ avoidCollectTrained = false then (false, gen)
  else (range gen.maxTransEden).foldl resetResettable (false, gen)

/-- `collectTransEden` returns early, or goes on to scan the roots with the eden `Collecting`. -/
inductive Begun where
  | returned (gen : TransNewGeneration)
  | scanning (gen : TransNewGeneration)
  deriving DecidableEq, Repr

/-- `collectTransEden` up to `gen_process_strong_roots`; the count is decremented first of all. -/
def beginCollect (gen : TransNewGeneration) (avoidCollectTrained collectionAttemptIsSafe : Bool)
    (id : Int) : Option Begun :=
  (gen.getTransEden id).map fun eden =>
    if eden.state ≠ .collectable then .returned gen
    else
      let gen := { gen with collectableCount := gen.collectableCount - 1 }
      if eden.trained = true ∧ avoidCollectTrained = true then
        .returned ((gen.resetTransEden id).clearTransEden id)
      else if collectionAttemptIsSafe = false then .returned gen
      else .scanning (gen.setTransEden id.toNat { eden with state := .collecting })

/-- `collectTransEden` after the discovered references have been processed. -/
def endCollect (gen : TransNewGeneration) (promotionFailed : Bool) (id : Int) :
    TransNewGeneration :=
  if promotionFailed then { gen with collectableCount := gen.collectableCount + 1 }
  else (gen.resetTransEden id).clearTransEden id

def collectTransEden (gen : TransNewGeneration)
    (avoidCollectTrained collectionAttemptIsSafe promotionFailed : Bool) (id : Int) :
    Option TransNewGeneration :=
  (gen.beginCollect avoidCollectTrained collectionAttemptIsSafe id).map fun begun =>
    match begun with
    | .returned gen => gen
    | .scanning gen => gen.endCollect promotionFailed id

/-- The edens that `space_iterate_with_some_excluded` applies its closure to. -/
def spaceIterateWithSomeExcluded (gen : TransNewGeneration) : List Nat :=
  (range gen.maxTransEden).filter fun id =>
    (gen.transEdens[id]?).any fun eden => eden.state ≠ .collecting

end TransNewGeneration

/-! ## The operations as one step system -/

inductive EdenOp where
  | getTransEdenToAllocate (isFoundTCPAcceptThread trainingDone : Bool) (current : Thread)
  | setTransEdenCollectable (id transID threadCount : Int)
  | collectTransEden (avoidCollectTrained collectionAttemptIsSafe promotionFailed : Bool)
      (id : Int)
  | collectResettableTransEden (trainingDone pretenure avoidCollectTrained : Bool)
  | resetTransEdens
  deriving DecidableEq, Repr

def step (gen : TransNewGeneration) : EdenOp → Option TransNewGeneration
  | .getTransEdenToAllocate found trainingDone current =>
    (gen.getTransEdenToAllocateNolock found trainingDone current).map Allocated.gen
  | .setTransEdenCollectable id transID threadCount =>
    some (gen.setTransEdenCollectable id transID threadCount)
  | .collectTransEden avoid safe failed id => gen.collectTransEden avoid safe failed id
  | .collectResettableTransEden trainingDone pretenure avoid =>
    some (gen.collectResettableTransEden trainingDone pretenure avoid).2
  | .resetTransEdens => some gen.resetTransEdens

/-! ## What each operation can do -/

namespace TransNewGeneration

variable {gen : TransNewGeneration} {eden : TransEden} {id : Nat}

theorem getTransEden_eq_some {index : Int} :
    gen.getTransEden index = some eden ↔
      ∃ id : Nat, index = id ∧ gen.transEdens[id]? = some eden := by
  unfold getTransEden maxTransEden
  constructor
  · intro found
    split at found
    · rename_i range
      exact ⟨index.toNat, by omega, found⟩
    · cases found
  · rintro ⟨id, rfl, found⟩
    have := (List.getElem?_eq_some_iff.mp found).1
    rw [if_pos (by omega)]
    simpa using found

theorem getTransEden_natCast : gen.getTransEden (id : Int) = gen.transEdens[id]? := by
  cases found : gen.transEdens[id]? with
  | some eden => exact getTransEden_eq_some.mpr ⟨id, rfl, found⟩
  | none =>
    cases other : gen.getTransEden id with
    | none => rfl
    | some eden =>
      obtain ⟨same, eq, found'⟩ := getTransEden_eq_some.mp other
      obtain rfl : id = same := by omega
      rw [found] at found'
      cases found'

@[simp] theorem setTransEden_transEdens :
    (gen.setTransEden id eden).transEdens = gen.transEdens.set id eden := rfl

@[simp] theorem setTransEden_assignedCount :
    (gen.setTransEden id eden).assignedCount = gen.assignedCount := rfl

@[simp] theorem setTransEden_availableCount :
    (gen.setTransEden id eden).availableCount = gen.availableCount := rfl

@[simp] theorem setTransEden_collectableCount :
    (gen.setTransEden id eden).collectableCount = gen.collectableCount := rfl

@[simp] theorem setTransEden_maxTransEden (gen : TransNewGeneration) (id : Nat) (eden : TransEden) :
    (gen.setTransEden id eden).maxTransEden = gen.maxTransEden := by
  simp [maxTransEden]

/-- `reset_transEden` followed by `clear`, as every emptying of an eden does. -/
theorem reset_clear_eq (gen : TransNewGeneration) (found : gen.transEdens[id]? = some eden) :
    (gen.resetTransEden id).clearTransEden id =
      { gen.setTransEden id eden.reset.clear with
        assignedCount := gen.assignedCount - 1
        availableCount := gen.availableCount + 1 } := by
  have bound := (List.getElem?_eq_some_iff.mp found).1
  unfold resetTransEden clearTransEden
  simp only [getTransEden_natCast, found, setTransEden, Int.toNat_natCast]
  rw [getElem?_set_self bound]
  simp

theorem setTransEdenCollectable_cases (gen : TransNewGeneration) (index transID threadCount : Int) :
    ((∀ eden, gen.getTransEden index = some eden → eden.transID ≠ transID) ∧
        gen.setTransEdenCollectable index transID threadCount = gen) ∨
      ∃ (id : Nat) (eden : TransEden), index = id ∧ gen.transEdens[id]? = some eden ∧
        eden.transID = transID ∧
        gen.setTransEdenCollectable index transID threadCount =
          { gen.setTransEden id { eden with state := .collectable, threadCount := threadCount } with
            collectableCount := gen.collectableCount + 1 } := by
  cases found : gen.getTransEden index with
  | none => exact .inl ⟨by simp, by simp [setTransEdenCollectable, found]⟩
  | some eden =>
    obtain ⟨id, rfl, entry⟩ := getTransEden_eq_some.mp found
    by_cases holds : eden.transID = transID
    · exact .inr ⟨id, eden, rfl, entry, holds, by simp [setTransEdenCollectable, found, holds]⟩
    · exact .inl ⟨by simpa using holds, by simp [setTransEdenCollectable, found, holds]⟩

/-- The outcomes of `collectTransEden` on the eden at `id`. -/
inductive CollectOutcome (gen : TransNewGeneration) (avoid safe failed : Bool) (id : Nat)
    (eden : TransEden) : TransNewGeneration → Prop
  | notCollectable (idle : eden.state ≠ .collectable) : CollectOutcome gen avoid safe failed id eden gen
  | shortcut (ended : eden.state = .collectable) (trained : eden.trained = true ∧ avoid = true) :
      CollectOutcome gen avoid safe failed id eden
        { gen.setTransEden id eden.reset.clear with
          collectableCount := gen.collectableCount - 1
          assignedCount := gen.assignedCount - 1
          availableCount := gen.availableCount + 1 }
  | bailOut (ended : eden.state = .collectable) (untrained : ¬(eden.trained = true ∧ avoid = true))
      (refused : safe = false) :
      CollectOutcome gen avoid safe failed id eden
        { gen with collectableCount := gen.collectableCount - 1 }
  | promotionFailed (ended : eden.state = .collectable)
      (untrained : ¬(eden.trained = true ∧ avoid = true)) (accepted : safe = true)
      (failure : failed = true) :
      CollectOutcome gen avoid safe failed id eden
        (gen.setTransEden id { eden with state := .collecting })
  | evacuated (ended : eden.state = .collectable)
      (untrained : ¬(eden.trained = true ∧ avoid = true)) (accepted : safe = true)
      (success : failed = false) :
      CollectOutcome gen avoid safe failed id eden
        { gen.setTransEden id eden.reset.clear with
          collectableCount := gen.collectableCount - 1
          assignedCount := gen.assignedCount - 1
          availableCount := gen.availableCount + 1 }

theorem collectTransEden_outcome {avoid safe failed : Bool} {index : Int}
    {after : TransNewGeneration}
    (collected : gen.collectTransEden avoid safe failed index = some after) :
    ∃ (id : Nat) (eden : TransEden), index = id ∧ gen.transEdens[id]? = some eden ∧
      CollectOutcome gen avoid safe failed id eden after := by
  unfold collectTransEden beginCollect at collected
  cases found : gen.getTransEden index with
  | none => simp [found] at collected
  | some eden =>
    obtain ⟨id, rfl, entry⟩ := getTransEden_eq_some.mp found
    refine ⟨id, eden, rfl, entry, ?_⟩
    have bound := (List.getElem?_eq_some_iff.mp entry).1
    simp only [found, map_some, some.injEq] at collected
    subst collected
    by_cases ended : eden.state = .collectable
    · by_cases trained : eden.trained = true ∧ avoid = true
      · simp only [ended, not_true, if_false, trained, and_self, if_true, ne_eq]
        rw [reset_clear_eq { gen with collectableCount := gen.collectableCount - 1 } entry]
        exact .shortcut ended ⟨trained.1, rfl⟩
      · cases safe with
        | false => simpa [ended, trained] using .bailOut ended trained rfl
        | true =>
          cases failed with
          | false =>
            simp only [ended, not_true, if_false, trained, endCollect, ne_eq, Bool.true_eq_false,
              Bool.false_eq_true]
            have scanned : (gen.transEdens.set id { eden with state := .collecting })[id]? =
                some { eden with state := .collecting } := getElem?_set_self bound
            rw [reset_clear_eq _ scanned]
            simpa [setTransEden, TransEden.reset] using .evacuated ended trained rfl rfl
          | true =>
            simpa [ended, trained, endCollect, setTransEden] using
              .promotionFailed ended trained rfl rfl
    · simpa [ended] using .notCollectable ended

/-- The paths through `getTransEdenToAllocate_nolock`. -/
inductive AllocationPath (gen : TransNewGeneration) (found trainingDone : Bool) :
    Thread → Allocated → Prop
  | outside {current : Thread}
      (reason : found = false ∨ current = .vm ∨
        ∃ thread : JavaThread, current = .java thread ∧ thread.transID = -1) :
      AllocationPath gen found trainingDone current ⟨none, current, gen⟩
  | cached {thread : JavaThread} {id : Nat} {eden : TransEden} (accept : found = true)
      (valid : thread.transID ≠ -1) (cache : thread.transEdenID = id)
      (entry : gen.transEdens[id]? = some eden) (owns : eden.transID = thread.transID)
      (held : eden.state = .assigned) :
      AllocationPath gen found trainingDone (.java thread) ⟨some id, .java thread, gen⟩
  | ditched {thread : JavaThread} {id : Nat} {eden : TransEden} (accept : found = true)
      (valid : thread.transID ≠ -1) (cache : thread.transEdenID = id)
      (entry : gen.transEdens[id]? = some eden)
      (lost : ¬(thread.transID = eden.transID ∧ eden.state = .assigned)) :
      AllocationPath gen found trainingDone (.java thread)
        ⟨none, .java { thread with transEdenID := -1, transID := -1 }, gen⟩
  | searched {thread : JavaThread} {id : Nat} {eden : TransEden} (accept : found = true)
      (valid : thread.transID ≠ -1) (cache : thread.transEdenID = -1)
      (search : gen.searchTransID thread.transID = some id)
      (entry : gen.transEdens[id]? = some eden) (owns : eden.transID = thread.transID) :
      AllocationPath gen found trainingDone (.java thread)
        ⟨some id, .java { thread with transEdenID := id }, gen⟩
  | assigned {thread : JavaThread} {id : Nat} {eden : TransEden} (accept : found = true)
      (valid : thread.transID ≠ -1) (cache : thread.transEdenID = -1)
      (search : gen.searchTransID thread.transID = none)
      (room : gen.assignedCount < gen.maxTransEden)
      (entry : gen.transEdens[id]? = some eden) (free : eden.state = .available) :
      AllocationPath gen found trainingDone (.java thread)
        ⟨some id, .java { thread with transEdenID := id },
          gen.assignTransEden trainingDone thread.transID id eden⟩
  | full {thread : JavaThread} (accept : found = true) (valid : thread.transID ≠ -1)
      (cache : thread.transEdenID = -1) (search : gen.searchTransID thread.transID = none)
      (noRoom : gen.searchAvailable = none) :
      AllocationPath gen found trainingDone (.java thread)
        ⟨none, .java { thread with transID := -1 }, gen⟩

theorem searchTransID_eq_some {tid : Int} (search : gen.searchTransID tid = some id) :
    ∃ eden, gen.transEdens[id]? = some eden ∧ eden.transID = tid := by
  obtain ⟨bound, holds, -⟩ := findIdx?_eq_some_iff_getElem.mp search
  exact ⟨gen.transEdens[id], getElem?_eq_getElem bound, by simpa using holds⟩

theorem searchTransID_eq_none {tid : Int} :
    gen.searchTransID tid = none ↔ ∀ eden ∈ gen.transEdens, eden.transID ≠ tid := by
  simp [searchTransID, findIdx?_eq_none_iff]

theorem searchAvailable_eq_some (search : gen.searchAvailable = some id) :
    gen.assignedCount < gen.maxTransEden ∧
      ∃ eden, gen.transEdens[id]? = some eden ∧ eden.state = .available := by
  unfold searchAvailable at search
  split at search
  · rename_i room
    obtain ⟨bound, holds, -⟩ := findIdx?_eq_some_iff_getElem.mp search
    exact ⟨room, gen.transEdens[id], getElem?_eq_getElem bound, by simpa using holds⟩
  · cases search

theorem searchOrAssign_path {found trainingDone : Bool} {thread : JavaThread}
    (accept : found = true) (valid : thread.transID ≠ -1) (cache : thread.transEdenID = -1) :
    AllocationPath gen found trainingDone (.java thread)
      (gen.searchOrAssign trainingDone thread) := by
  unfold searchOrAssign
  cases search : gen.searchTransID thread.transID with
  | some id =>
    obtain ⟨eden, entry, owns⟩ := searchTransID_eq_some search
    exact .searched accept valid cache search entry owns
  | none =>
    cases free : gen.searchAvailable with
    | none => exact .full accept valid cache search free
    | some id =>
      obtain ⟨room, eden, entry, available⟩ := searchAvailable_eq_some free
      simp only [entry]
      exact .assigned accept valid cache search room entry available

theorem getTransEdenToAllocateNolock_path {found trainingDone : Bool} {current : Thread}
    {out : Allocated}
    (returns : gen.getTransEdenToAllocateNolock found trainingDone current = some out) :
    AllocationPath gen found trainingDone current out := by
  unfold getTransEdenToAllocateNolock at returns
  cases found with
  | false =>
    cases some.inj returns
    exact .outside (.inl rfl)
  | true =>
    cases current with
    | vm =>
      cases some.inj returns
      exact .outside (.inr (.inl rfl))
    | java thread =>
      simp only [Bool.true_eq_false, if_false] at returns
      by_cases valid : thread.transID = -1
      · rw [if_pos valid] at returns
        cases some.inj returns
        exact .outside (.inr (.inr ⟨thread, rfl, valid⟩))
      · rw [if_neg valid] at returns
        by_cases cache : thread.transEdenID = -1
        · rw [if_pos cache] at returns
          cases some.inj returns
          exact searchOrAssign_path rfl valid cache
        · rw [if_neg cache] at returns
          obtain ⟨eden, entry, rfl⟩ := map_eq_some_iff.mp returns
          obtain ⟨id, same, entry⟩ := getTransEden_eq_some.mp entry
          split
          · rename_i holds
            rw [same]
            exact .cached rfl valid same entry holds.1.symm holds.2
          · rename_i lost
            exact .ditched rfl valid same entry lost

/-- Nothing that touches the owner, the start of an unfinished collection, or emptying it. -/
inductive Settled (before after : TransEden) : Prop
  | kept (owner : after.transID = before.transID) (state : after.state = before.state)
  | collecting (owner : after.transID = before.transID) (ended : before.state = .collectable)
      (scanned : after.state = .collecting)
  | emptied (owner : after.transID = -1) (free : after.state = .available)

structure TableSettled (before after : TransNewGeneration) : Prop where
  size : after.maxTransEden = before.maxTransEden
  entry : ∀ (id : Nat) (eden : TransEden), after.transEdens[id]? = some eden →
    ∃ old, before.transEdens[id]? = some old ∧ Settled old eden

theorem TableSettled.refl (gen : TransNewGeneration) : TableSettled gen gen where
  size := rfl
  entry := fun _ eden entry => ⟨eden, entry, .kept rfl rfl⟩

theorem tableSettled_set {after : TransNewGeneration} {next : TransEden}
    (entry : gen.transEdens[id]? = some eden)
    (same : after.transEdens = gen.transEdens.set id next) (settled : Settled eden next) :
    TableSettled gen after := by
  refine ⟨by simp [maxTransEden, same], fun other found here => ?_⟩
  rw [same] at here
  by_cases target : id = other
  · subst target
    rw [getElem?_set_self (List.getElem?_eq_some_iff.mp entry).1] at here
    cases some.inj here
    exact ⟨eden, entry, settled⟩
  · rw [getElem?_set_ne target] at here
    exact ⟨found, here, .kept rfl rfl⟩

theorem Settled.trans {first second third : TransEden} (earlier : Settled first second)
    (later : Settled second third) : Settled first third := by
  cases later with
  | emptied owner free => exact .emptied owner free
  | kept owner state =>
    cases earlier with
    | kept owner' state' => exact .kept (owner.trans owner') (state.trans state')
    | collecting owner' ended scanned =>
      exact .collecting (owner.trans owner') ended (state.trans scanned)
    | emptied owner' free => exact .emptied (owner.trans owner') (state.trans free)
  | collecting owner ended scanned =>
    cases earlier with
    | kept owner' state' => exact .collecting (owner.trans owner') (state'.symm.trans ended) scanned
    | collecting owner' ended' scanned' => rw [scanned'] at ended; cases ended
    | emptied owner' free => rw [free] at ended; cases ended

theorem TableSettled.trans {first second third : TransNewGeneration}
    (earlier : TableSettled first second) (later : TableSettled second third) :
    TableSettled first third := by
  refine ⟨later.size.trans earlier.size, fun id eden entry => ?_⟩
  obtain ⟨middle, entry', settled⟩ := later.entry id eden entry
  obtain ⟨old, found, settled'⟩ := earlier.entry id middle entry'
  exact ⟨old, found, settled'.trans settled⟩

theorem collectTransEden_settled {avoid safe failed : Bool} {index : Int}
    {after : TransNewGeneration}
    (collected : gen.collectTransEden avoid safe failed index = some after) :
    TableSettled gen after := by
  obtain ⟨id, eden, -, entry, outcome⟩ := collectTransEden_outcome collected
  cases outcome with
  | notCollectable idle => exact .refl gen
  | bailOut ended untrained refused => exact ⟨rfl, (TableSettled.refl gen).entry⟩
  | shortcut ended trained => exact tableSettled_set entry rfl (.emptied rfl rfl)
  | promotionFailed ended untrained accepted failure =>
    exact tableSettled_set entry rfl (.collecting rfl ended rfl)
  | evacuated ended untrained accepted success =>
    exact tableSettled_set entry rfl (.emptied rfl rfl)

/-- What the emptying of an eden that has ended keeps, the pass over the table keeps. -/
theorem collectResettable_keeps {P : TransNewGeneration → Prop} (holds : P gen)
    (empties : ∀ {gen : TransNewGeneration} {id : Nat} {eden : TransEden},
      gen.transEdens[id]? = some eden → eden.state = .collectable → P gen →
      P { gen.setTransEden id eden.reset.clear with
        collectableCount := gen.collectableCount - 1
        assignedCount := gen.assignedCount - 1
        availableCount := gen.availableCount + 1 }) (trainingDone pretenure avoid : Bool) :
    P (gen.collectResettableTransEden trainingDone pretenure avoid).2 := by
  unfold collectResettableTransEden
  split
  · exact holds
  · refine foldlRecOn (motive := fun done : Bool × TransNewGeneration => P done.2) _ _ holds
      fun done kept id _ => ?_
    unfold resetResettable
    cases entry : done.2.transEdens[id]? with
    | none => exact kept
    | some eden =>
      dsimp only
      split
      · rename_i resettable
        rw [reset_clear_eq { done.2 with collectableCount := done.2.collectableCount - 1 } entry]
        exact empties entry resettable.1 kept
      · exact kept

theorem collectResettable_settled (gen : TransNewGeneration)
    (trainingDone pretenure avoid : Bool) :
    TableSettled gen (gen.collectResettableTransEden trainingDone pretenure avoid).2 :=
  collectResettable_keeps (P := TableSettled gen) (.refl gen)
    (fun entry _ settled => settled.trans (tableSettled_set entry rfl (.emptied rfl rfl))) _ _ _

theorem resetTransEdens_settled (gen : TransNewGeneration) :
    TableSettled gen gen.resetTransEdens := by
  refine ⟨by simp [resetTransEdens, maxTransEden], fun id eden entry => ?_⟩
  simp only [resetTransEdens, getElem?_map, map_eq_some_iff] at entry
  obtain ⟨old, found, rfl⟩ := entry
  exact ⟨old, found, .emptied rfl rfl⟩

end TransNewGeneration
end EdenTable
