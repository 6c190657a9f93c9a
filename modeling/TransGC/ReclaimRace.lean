import Mathlib.Algebra.Order.Ring.Int
import Mathlib.Logic.Function.Basic
import TransGC.EdenTable
import TransGC.TransitionRuns

/-!
# Reclaiming edens in running threads

`collectResettableTransEden` gives trained Collectable edens back without a safepoint or a lock,
while other threads look for an eden under `trans_lock`, allocate in the eden they were given, and
end their transactions. One step of a thread makes at most one read, write or compare-and-swap.

An eden carries three records for the statements: the transaction that it has been handed to and
that has not ended, the number of assignments, and whether it is published as Collectable.
-/
namespace ReclaimRace
open Function
open EdenTable (State)

inductive Counter
  | assigned
  | available
  | collectable
  deriving DecidableEq

structure Eden where
  state : State
  transID : Int
  threadCount : Int
  overflowed : Bool
  trained : Bool
  top : Nat
  /-- The blocks below `top`, by their first word and their size. -/
  objects : List (Nat × Nat)
  serving : Option Int
  assignments : Nat
  published : Bool

def Eden.new : Eden where
  state := .available
  transID := -1
  threadCount := 0
  overflowed := false
  trained := false
  top := 0
  objects := []
  serving := none
  assignments := 0
  published := false

/-- The writes of the field `state`, with what they mean for the records of the eden. -/
def Eden.setState (eden : Eden) (tid : Int) : State → Eden
  | .assigned =>
    { eden with
      state := .assigned, serving := some tid, assignments := eden.assignments + 1 }
  | .collectable =>
    { eden with
      state := .collectable
      serving := if eden.serving = some tid then none else eden.serving
      published := true }
  | .available => { eden with state := .available, published := false }
  | state => { eden with state := state }

structure Memory where
  edens : Nat → Eden
  count : Counter → Int
  trainingDone : Bool

namespace Memory

def setEden (mem : Memory) (j : Nat) (eden : Eden) : Memory :=
  { mem with edens := update mem.edens j eden }

/-- The load, or the compare-and-swap with the value loaded. `none` is the return. -/
def changeSharedIntByOne (mem : Memory) (counter : Counter) (delta : Int) :
    Option Int → Memory × Option (Option Int)
  | none => (mem, some (some (mem.count counter)))
  | some seen =>
    if mem.count counter = seen then
      ({ mem with count := update mem.count counter (seen + delta) }, none)
    else (mem, some none)

end Memory

/-- In `decreaseSharedInt`, in `reset_transEden` or before `clear`. -/
inductive ReclaimPoint
  | decreaseCollectable (seen : Option Int)
  | setState
  | resetTransID
  | resetThreadCount
  | resetOverflowed
  | decreaseAssigned (seen : Option Int)
  | increaseAvailable (seen : Option Int)
  | clear
  deriving DecidableEq

/-- One access of the reset of eden `j`; `none` is its end. -/
def reclaimStep (mem : Memory) (j : Nat) : ReclaimPoint → Memory × Option ReclaimPoint
  | .decreaseCollectable seen =>
    let (after, next) := mem.changeSharedIntByOne .collectable (-1) seen
    (after, some (next.elim .setState .decreaseCollectable))
  | .setState => (mem.setEden j ((mem.edens j).setState (-1) .available), some .resetTransID)
  | .resetTransID => (mem.setEden j { mem.edens j with transID := -1 }, some .resetThreadCount)
  | .resetThreadCount => (mem.setEden j { mem.edens j with threadCount := 0 }, some .resetOverflowed)
  | .resetOverflowed =>
    (mem.setEden j { mem.edens j with overflowed := false }, some (.decreaseAssigned none))
  | .decreaseAssigned seen =>
    let (after, next) := mem.changeSharedIntByOne .assigned (-1) seen
    (after, some (next.elim (.increaseAvailable none) .decreaseAssigned))
  | .increaseAvailable seen =>
    let (after, next) := mem.changeSharedIntByOne .available 1 seen
    (after, some (next.elim .clear .increaseAvailable))
  | .clear => (mem.setEden j { mem.edens j with top := 0, objects := [] }, none)

/-- Where `getTransEdenToAllocate_nolock` is once it has found an Available eden. -/
inductive AssignPoint
  | setState
  | setTransID
  | increaseAssigned (seen : Option Int)
  | decreaseAvailable (seen : Option Int)
  | readTrainingDone
  | setTrained
  deriving DecidableEq

def assignStep (mem : Memory) (j : Nat) (tid : Int) : AssignPoint → Memory × Option AssignPoint
  | .setState => (mem.setEden j ((mem.edens j).setState tid .assigned), some .setTransID)
  | .setTransID => (mem.setEden j { mem.edens j with transID := tid }, some (.increaseAssigned none))
  | .increaseAssigned seen =>
    let (after, next) := mem.changeSharedIntByOne .assigned 1 seen
    (after, some (next.elim (.decreaseAvailable none) .increaseAssigned))
  | .decreaseAvailable seen =>
    let (after, next) := mem.changeSharedIntByOne .available (-1) seen
    (after, some (next.elim .readTrainingDone .decreaseAvailable))
  | .readTrainingDone => (mem, if mem.trainingDone then some .setTrained else none)
  | .setTrained => (mem.setEden j { mem.edens j with trained := true }, none)

/-- Where `set_transEden_collectable` is once the transaction IDs have been compared. -/
inductive PublishPoint
  | setState
  | increaseCollectable (seen : Option Int)
  | setThreadCount
  deriving DecidableEq

def publishStep (mem : Memory) (j : Nat) (tid threadCount : Int) :
    PublishPoint → Memory × Option PublishPoint
  | .setState =>
    (mem.setEden j ((mem.edens j).setState tid .collectable), some (.increaseCollectable none))
  | .increaseCollectable seen =>
    let (after, next) := mem.changeSharedIntByOne .collectable 1 seen
    (after, some (next.elim .setThreadCount .increaseCollectable))
  | .setThreadCount => (mem.setEden j { mem.edens j with threadCount := threadCount }, none)

/-- The request of `getTransEdenToAllocate` carries the size of the block to allocate, if any. -/
inductive Pc
  | idle
  | readCollectableCount
  | readAvailableCount
  | readTrainingDone
  | reclaimState (j : Nat)
  | reclaimTrained (j : Nat)
  | reclaim (j : Nat) (point : ReclaimPoint)
  | takeLock (request : Option Nat)
  | cachedTransID (j : Nat) (request : Option Nat)
  | cachedState (j : Nat) (request : Option Nat)
  | search (j : Nat) (request : Option Nat)
  | readAssignedCount (request : Option Nat)
  | findAvailable (j : Nat) (request : Option Nat)
  | assign (j : Nat) (point : AssignPoint) (request : Option Nat)
  | release (eden : Option Nat) (request : Option Nat)
  | readFree (j size : Nat)
  | setOverflowed (j : Nat)
  | readTop (j size : Nat)
  | swapTop (j size seen : Nat)
  | checkOwner (j : Nat)
  | publish (j : Nat) (point : PublishPoint)
  deriving DecidableEq

/-- A thread; `monitored` threads own their transaction, the others inherit one. -/
structure Mutator where
  transID : Int
  transEdenID : Int
  monitored : Bool
  threadCountsInTransaction : Int
  pc : Pc
  deriving DecidableEq

def Mutator.goto (thread : Mutator) (pc : Pc) : Mutator := { thread with pc := pc }

structure VM where
  threads : Nat → Option Mutator
  mem : Memory
  /-- The thread that holds `trans_lock`. -/
  lock : Option Nat
  newTransID : Int

structure Config where
  maxTransEden : Nat
  /-- The size of a transaction eden in words. -/
  edenWords : Nat
  /-- `Pretenure && AVOID_COLLECT_TRAINED`. -/
  resettable : Bool

namespace VM

def initial : VM where
  threads := fun _ => none
  mem := ⟨fun _ => .new, fun _ => 0, false⟩
  lock := none
  newTransID := -1

def initialOf (config : Config) : VM :=
  { initial with
    mem := { initial.mem with count := fun c => if c = .available then config.maxTransEden else 0 } }

def setThread (vm : VM) (id : Nat) (thread : Mutator) : VM :=
  { vm with threads := update vm.threads id (some thread) }

end VM

section Act

variable (config : Config)

/-- The loop of `collectResettableTransEden` at eden `j`. -/
def reclaimFrom (thread : Mutator) (j : Nat) : Mutator :=
  if j < config.maxTransEden then thread.goto (.reclaimState j) else thread.goto .idle

/-- A thread that gets no eden leaves its transaction. -/
def goesLocal (thread : Mutator) (request : Option Nat) : Mutator :=
  { thread with transID := -1, pc := .release none request }

def ditched (thread : Mutator) (request : Option Nat) : Mutator :=
  { thread with transEdenID := -1, transID := -1, pc := .release none request }

def searchFrom (thread : Mutator) (j : Nat) (request : Option Nat) : Mutator :=
  if j < config.maxTransEden then thread.goto (.search j request)
  else thread.goto (.readAssignedCount request)

def findFrom (thread : Mutator) (j : Nat) (request : Option Nat) : Mutator :=
  if j < config.maxTransEden then thread.goto (.findAvailable j request)
  else goesLocal thread request

def given (thread : Mutator) (j : Nat) (request : Option Nat) : Mutator :=
  { thread with transEdenID := j, pc := .release (some j) request }

/-- The first test of `getTransEdenToAllocate_nolock`, on the thread's own fields. -/
def entered (thread : Mutator) (request : Option Nat) : Mutator :=
  if thread.transID = -1 then thread.goto (.release none request)
  else if thread.transEdenID = -1 then searchFrom config thread 0 request
  else thread.goto (.cachedTransID thread.transEdenID.toNat request)

/-- Park, the entry of a traced method or the exit of the thread: it leaves the transaction. -/
def ended (thread : Mutator) : Mutator := { thread with transID := -1, pc := .idle }

/-- What a thread does next: its new state, the memory, and the lock. -/
def act (vm : VM) (id : Nat) (thread : Mutator) : Option (Mutator × Memory × Option Nat) :=
  let mem := vm.mem
  let stay (thread : Mutator) := some (thread, mem, vm.lock)
  match thread.pc with
  | .idle => none
  | .readCollectableCount =>
    stay (thread.goto (if mem.count .collectable ≥ 1 then .readAvailableCount else .idle))
  | .readAvailableCount =>
    stay (thread.goto (if mem.count .available < 1 then .readTrainingDone else .idle))
  | .readTrainingDone =>
    stay (if mem.trainingDone ∧ config.resettable then reclaimFrom config thread 0
      else thread.goto .idle)
  | .reclaimState j =>
    stay (if (mem.edens j).state = .collectable then thread.goto (.reclaimTrained j)
      else reclaimFrom config thread (j + 1))
  | .reclaimTrained j =>
    stay (if (mem.edens j).trained then thread.goto (.reclaim j (.decreaseCollectable none))
      else reclaimFrom config thread (j + 1))
  | .reclaim j point =>
    let (after, next) := reclaimStep mem j point
    some (next.elim (reclaimFrom config thread (j + 1)) fun point => thread.goto (.reclaim j point),
      after, vm.lock)
  | .takeLock request =>
    if vm.lock = none then some (entered config thread request, mem, some id) else none
  | .cachedTransID j request =>
    stay (if (mem.edens j).transID = thread.transID then thread.goto (.cachedState j request)
      else ditched thread request)
  | .cachedState j request =>
    stay (if (mem.edens j).state = .assigned then thread.goto (.release (some j) request)
      else ditched thread request)
  | .search j request =>
    stay (if (mem.edens j).transID = thread.transID then given thread j request
      else searchFrom config thread (j + 1) request)
  | .readAssignedCount request =>
    stay (if mem.count .assigned < config.maxTransEden then findFrom config thread 0 request
      else goesLocal thread request)
  | .findAvailable j request =>
    stay (if (mem.edens j).state = .available then thread.goto (.assign j .setState request)
      else findFrom config thread (j + 1) request)
  | .assign j point request =>
    let (after, next) := assignStep mem j thread.transID point
    some (next.elim (given thread j request) fun point => thread.goto (.assign j point request),
      after, vm.lock)
  | .release eden request =>
    some (thread.goto (match eden, request with
      | some j, some size => .readFree j size
      | _, _ => .idle), mem, none)
  | .readFree j size =>
    stay (thread.goto (if (mem.edens j).top + size ≤ config.edenWords then .readTop j size
      else .setOverflowed j))
  | .setOverflowed j =>
    some (thread.goto .idle, mem.setEden j { mem.edens j with overflowed := true }, vm.lock)
  | .readTop j size =>
    stay (thread.goto (if (mem.edens j).top + size ≤ config.edenWords then
      .swapTop j size (mem.edens j).top else .idle))
  | .swapTop j size seen =>
    let eden := mem.edens j
    if eden.top = seen then
      some (thread.goto .idle, mem.setEden j
        { eden with top := seen + size, objects := (seen, size) :: eden.objects }, vm.lock)
    else stay (thread.goto (.readTop j size))
  | .checkOwner j =>
    stay (if (mem.edens j).transID = thread.transID then thread.goto (.publish j .setState)
      else ended thread)
  | .publish j point =>
    let (after, next) := publishStep mem j thread.transID thread.threadCountsInTransaction point
    some (next.elim (ended thread) fun point => thread.goto (.publish j point), after, vm.lock)

end Act

inductive Call
  | collectResettableTransEden
  | getTransEdenToAllocate (request : Option Nat)
  | endTransaction
  deriving DecidableEq

inductive Event
  /-- The accept thread starts a worker, which may begin a transaction at once. -/
  | worker (id : Nat) (begins : Bool)
  /-- A thread starts another one that takes part in its transaction. -/
  | child (id parent : Nat)
  | beginTransaction (id : Nat)
  | call (id : Nat) (call : Call)
  | act (id : Nat)
  | exit (id : Nat)
  | trainingEnds
  deriving DecidableEq

/-- `Universe::getNewTransID`, a 32-bit increment. -/
def VM.getNewTransID (vm : VM) : Int := (vm.newTransID + 1).bmod (2 ^ 32)

def Mutator.new (transID transEdenID : Int) (monitored : Bool) : Mutator where
  transID := transID
  transEdenID := transEdenID
  monitored := monitored
  threadCountsInTransaction := 1
  pc := .idle

/-- Only a monitored thread ends a transaction; `set_transEden_collectable` checks the index. -/
def call (config : Config) (thread : Mutator) : Call → Option Mutator
  | .collectResettableTransEden => some (thread.goto .readCollectableCount)
  | .getTransEdenToAllocate request => some (thread.goto (.takeLock request))
  | .endTransaction =>
    if thread.monitored = true ∧ thread.transID ≠ -1 then
      if thread.transEdenID < config.maxTransEden ∧ -1 < thread.transEdenID then
        some (thread.goto (.checkOwner thread.transEdenID.toNat))
      else some (ended thread)
    else none

def step (config : Config) (vm : VM) : Event → Option VM
  | .worker id begins =>
    if (vm.threads id).isSome then none
    else if begins then
      some { vm.setThread id (.new vm.getNewTransID (-1) true) with newTransID := vm.getNewTransID }
    else some (vm.setThread id (.new (-1) (-1) true))
  | .child id parent =>
    if (vm.threads id).isSome then none
    else (vm.threads parent).map fun owner =>
      vm.setThread id (.new owner.transID owner.transEdenID false)
  | .beginTransaction id =>
    (vm.threads id).bind fun thread =>
      if thread.monitored = true ∧ thread.pc = .idle then
        some { vm.setThread id
          { thread with
            transID := vm.getNewTransID, transEdenID := -1, threadCountsInTransaction := 1 } with
          newTransID := vm.getNewTransID }
      else none
  | .call id routine =>
    (vm.threads id).bind fun thread =>
      if thread.pc = .idle then (call config thread routine).map (vm.setThread id) else none
  | .act id =>
    (vm.threads id).bind fun thread =>
      (act config vm id thread).map fun (thread, mem, lock) =>
        { vm.setThread id thread with mem := mem, lock := lock }
  | .exit id =>
    (vm.threads id).bind fun thread =>
      if thread.pc = .idle ∧ ¬(thread.monitored = true ∧ thread.transID ≠ -1) then
        some { vm with threads := update vm.threads id none }
      else none
  | .trainingEnds => some { vm with mem := { vm.mem with trainingDone := true } }

end ReclaimRace
