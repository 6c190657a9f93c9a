import Mathlib.Algebra.Order.Ring.Int
import TransGC.EdenTable
import TransGC.PartialTriples

/-!
# Allocation under the TypeGen policy

`TypeGenCollectorPolicy::mem_allocate_with_pretenuring`: the choice between TransNew and
DefNew, the retry loop, and the VM operation that collects and tries again. Null is `none`; a
computation without a result stands for a null dereference or for a loop out of fuel.

Of the generations the model keeps how many words each of their spaces has left. An environment
says what other threads do to the heap meanwhile and what a collection leaves behind. Soft
limits of an eden equal its end under this policy; committing memory does not fail.
-/
namespace AllocationPolicy
open EdenTable PartialTriples

/-- Where a block lies: in DefNew, in a transaction eden of TransNew, in Tenured. -/
inductive Place
  | defNew
  | transEden (id : Nat)
  | tenured
  deriving DecidableEq, Repr

structure Flags where
  pretenureToOld : Bool
  normalGCInvoke : Bool
  gcFreq : Nat
  debugTypeGenGC : Bool
  collectGen0First : Bool
  pretenure : Bool
  avoidCollectTrained : Bool
  pretenureSizeThresholdWords : Nat
  pageWords : Nat
  minHeapDeltaWords : Nat
  pageWords_pos : 0 < pageWords

/-- The free words of the spaces, as far as a collection changes them. -/
structure Rooms where
  eden : Nat
  fromSpace : Nat
  shouldAllocateFromSpace : Bool
  transEden : Nat → Nat
  tenured : Nat
  /-- Words by which Tenured can still be expanded. -/
  uncommitted : Nat
  incrementalCollectionWillFail : Bool

structure World where
  gen : TransNewGeneration
  transEdenCapacity : Nat → Nat
  isFoundTCPAcceptThread : Bool
  trainingDone : Bool
  rooms : Rooms
  gcLockerActive : Bool
  needsGC : Bool
  totalCollections : Nat
  objCount : Nat

/-- The VM operation of a request, at the moment it starts. -/
structure Operation where
  remote : Bool
  world : World
  thread : Thread

/-- The state of one request: `thread` is the thread that executes. Recorded are whether a full
collection that clears the soft references was made, and the VM operation. -/
structure Session where
  world : World
  thread : Thread
  cleared : Bool
  operation : Option Operation

def Session.start (world : World) (thread : Thread) : Session := ⟨world, thread, false, none⟩

/-- What a collection leaves behind, and the answers it depends on. -/
structure Outcome where
  rooms : Rooms
  tenuredShouldCollect : Bool
  collectionAttemptIsSafe : Bool
  promotionFailed : Bool

structure Environment where
  /-- What other threads do to the heap at the `n`-th point at which this one can be held up. -/
  others : Nat → World → World
  /-- The result of a collection with the arguments `full`, `clear_all_soft_refs`, `remote`. -/
  outcome : World → Bool → Bool → Bool → Outcome
  /-- The result of the collection of one transaction eden. -/
  transEdenOutcome : World → Outcome
  /-- The value of a local variable that was not initialised. -/
  garbage : Nat → Nat

abbrev Policy := StateT Session Option

def modifyWorld (change : World → World) : Policy Unit :=
  fun s => some ((), { s with world := change s.world })

/-- A computation on the free words only. -/
def onRooms (f : Session → Option Place × Rooms) : Policy (Option Place) := fun s =>
  some ((f s).1, { s with world := { s.world with rooms := (f s).2 } })

section Generations

def overflowLimit : Nat := 2 ^ 61

/-- `DefNewGeneration::should_allocate`. -/
def defNewShouldAllocate (flags : Flags) (size : Nat) (isTlab : Bool) : Bool :=
  !(size ≥ overflowLimit) && size > 0 &&
    (isTlab || !(flags.pretenureSizeThresholdWords > 0) || size < flags.pretenureSizeThresholdWords)

/-- `Generation::should_allocate`, for Tenured, which has no allocation buffers. -/
def tenuredShouldAllocate (size : Nat) (isTlab : Bool) : Bool :=
  !isTlab && size > 0 && size < overflowLimit

def defNewParAllocate (size : Nat) : Policy (Option Place) :=
  onRooms fun s =>
    let rooms := s.world.rooms
    if size ≤ rooms.eden then (some .defNew, { rooms with eden := rooms.eden - size })
    else (none, rooms)

/-- `allocate_from_space`, called with the heap lock or by the VM thread. -/
def allocateFromSpace (size : Nat) : Policy (Option Place) :=
  onRooms fun s =>
    let rooms := s.world.rooms
    if (rooms.shouldAllocateFromSpace ∨ s.world.gcLockerActive ∧ s.world.needsGC) ∧
        size ≤ rooms.fromSpace then
      (some .defNew, { rooms with fromSpace := rooms.fromSpace - size })
    else (none, rooms)

def defNewAllocate (size : Nat) : Policy (Option Place) :=
  firstSome (defNewParAllocate size) (allocateFromSpace size)

def tenuredAllocate (size : Nat) : Policy (Option Place) :=
  onRooms fun s =>
    let rooms := s.world.rooms
    if size ≤ rooms.tenured then (some .tenured, { rooms with tenured := rooms.tenured - size })
    else (none, rooms)

/-- `page_align_size_up`, in words. -/
def pageAlignSizeUp (flags : Flags) (words : Nat) : Nat :=
  (words + flags.pageWords - 1) / flags.pageWords * flags.pageWords

def growBy (words : Nat) (rooms : Rooms) : Option Rooms :=
  if words ≤ rooms.uncommitted then
    some { rooms with
      uncommitted := rooms.uncommitted - words, tenured := rooms.tenured + words }
  else none

def growToReserved (rooms : Rooms) : Rooms :=
  { rooms with uncommitted := 0, tenured := rooms.tenured + rooms.uncommitted }

/-- `CardGeneration::expand`. -/
def expand (flags : Flags) (size : Nat) (rooms : Rooms) : Rooms :=
  let alignedWords := pageAlignSizeUp flags size
  let alignedExpandWords := pageAlignSizeUp flags flags.minHeapDeltaWords
  let more := if alignedExpandWords > alignedWords then growBy alignedExpandWords rooms else none
  match more with
  | some grown => grown
  | none => (growBy alignedWords rooms).getD (growToReserved rooms)

def tenuredExpandAndAllocate (flags : Flags) (size : Nat) : Policy (Option Place) := do
  modifyWorld fun world => { world with rooms := expand flags size world.rooms }
  tenuredAllocate size

def getTransEdenToAllocate : Policy (Option Nat) := fun s =>
  (s.world.gen.getTransEdenToAllocateNolock s.world.isFoundTCPAcceptThread s.world.trainingDone
    s.thread).map fun out =>
      (out.eden, { s with thread := out.thread, world := { s.world with gen := out.gen } })

/-- It may assign an eden, and it may take the transaction away from the thread. -/
def transNewShouldAllocate : Policy Bool := do
  if (← get).world.isFoundTCPAcceptThread = false then return false
  else return (← getTransEdenToAllocate).isSome

def overflow (id : Nat) (world : World) : World :=
  match world.gen.transEdens[id]? with
  | some eden => { world with gen := world.gen.setTransEden id { eden with overflowed := true } }
  | none => world

/-- Allocation in a transaction eden, which is marked when the block does not fit. -/
def transEdenAllocate (size id : Nat) : Policy (Option Place) := do
  let rooms := (← get).world.rooms
  if size ≤ rooms.transEden id then
    modifyWorld fun world => { world with rooms := { rooms with
      transEden := Function.update rooms.transEden id (rooms.transEden id - size) } }
    return some (.transEden id)
  else
    modifyWorld (overflow id)
    return none

/-- `TransNewGeneration::allocate` and `par_allocate`. -/
def transNewAllocate (size : Nat) : Policy (Option Place) := do
  match ← getTransEdenToAllocate with
  | some id => transEdenAllocate size id
  | none => return none

/-- An attempt in a generation, made only if the generation takes the request. -/
def attempt (should : Policy Bool) (allocate : Policy (Option Place)) : Policy (Option Place) := do
  if ← should then allocate else return none

end Generations

section Policy

variable (flags : Flags) (env : Environment) (size : Nat) (isTlab : Bool)

def tryDefNew : Policy (Option Place) :=
  attempt (pure (defNewShouldAllocate flags size isTlab)) (defNewAllocate size)

def tryTransNew : Policy (Option Place) := attempt transNewShouldAllocate (transNewAllocate size)

def tryTenured : Policy (Option Place) :=
  attempt (pure (tenuredShouldAllocate size isTlab)) (tenuredAllocate size)

/-- The attempt in one generation and then in Tenured, unless the first one takes the request, is
full, and only it may be tried. -/
def firstThenTenured (firstOnly : Bool) (should : Policy Bool) (allocate : Policy (Option Place)) :
    Policy (Option Place) := do
  if ← should then
    match ← allocate with
    | some place => return some place
    | none => if firstOnly then return none else tryTenured size isTlab
  else tryTenured size isTlab

def attemptTypeBasedAllocation (firstOnly remote : Bool) : Policy (Option Place) :=
  if remote = false then
    firstThenTenured size isTlab firstOnly (pure (defNewShouldAllocate flags size isTlab))
      (defNewAllocate size)
  else firstThenTenured size isTlab firstOnly transNewShouldAllocate (transNewAllocate size)

/-- A full collection starts at Tenured, unless the younger generations are collected first. -/
def startingLevel (full : Bool) : Nat := if full ∧ flags.collectGen0First = false then 2 else 0

def firstCollectable (gen : TransNewGeneration) : Option Nat :=
  gen.transEdens.findIdx? fun eden => eden.state = .collectable

def collectTransEden (outcome : Outcome) (gen : TransNewGeneration) (id : Nat) :
    Option TransNewGeneration :=
  gen.collectTransEden flags.avoidCollectTrained outcome.collectionAttemptIsSafe
    outcome.promotionFailed id

/-- `TransNewGeneration::collect`: the first Collectable eden. -/
def collectTransNew (outcome : Outcome) (gen : TransNewGeneration) : Option TransNewGeneration :=
  match firstCollectable gen with
  | some id => collectTransEden flags outcome gen id
  | none => some gen

/-- What every collection does apart from the table of edens. Sizes are not computed anew, so
Tenured does not give back what it has been expanded by. -/
def World.collected (world : World) (outcome : Outcome) (gen : TransNewGeneration) : World :=
  { world with
    gen := gen
    rooms := { outcome.rooms with
      uncommitted := min outcome.rooms.uncommitted world.rooms.uncommitted }
    totalCollections := world.totalCollections + 1 }

/-- `GC_locker::check_active_before_gc`: with an active locker a collection is put off. -/
def unlessLocked (collection : Policy Unit) : Policy Unit := do
  if (← get).world.gcLockerActive then modifyWorld fun world => { world with needsGC := true }
  else collection

/-- The table after a collection; it is reset after a major one when the debug flag is on. -/
def collectLevels (outcome : Outcome) (full remote : Bool) (gen : TransNewGeneration) :
    Option TransNewGeneration :=
  let complete := full || outcome.tenuredShouldCollect
  (if remote ∧ startingLevel flags full ≤ 1 then collectTransNew flags outcome gen
    else some gen).map fun gen =>
      if complete ∧ flags.debugTypeGenGC then gen.resetTransEdens else gen

def doTypeBasedCollection (full clearAllSoftRefs remote : Bool) : Policy Unit :=
  unlessLocked fun s =>
    let outcome := env.outcome s.world full clearAllSoftRefs remote
    (collectLevels flags outcome full remote s.world.gen).map fun gen =>
      ((), { s with
        world := s.world.collected outcome gen
        cleared := s.cleared || (full && clearAllSoftRefs) })

/-- The loop over the generations from old to young that tries to expand them. -/
def expandLoop : Policy (Option Place) :=
  firstSome (attempt (pure (tenuredShouldAllocate size isTlab)) (tenuredExpandAndAllocate flags size))
    (firstSome (tryTransNew size) (tryDefNew flags size isTlab))

/-- A full collection that clears the soft references, and one more attempt. -/
def lastResort (remote : Bool) : Policy (Option Place) := do
  doTypeBasedCollection flags env true true remote
  attemptTypeBasedAllocation flags size isTlab false remote

def afterFirstCollection (remote : Bool) : Policy (Option Place) :=
  firstSome (attemptTypeBasedAllocation flags size isTlab false remote)
    (firstSome (expandLoop flags size isTlab) (lastResort flags env size isTlab remote))

def satisfyFailedTypeBasedAllocation (remote : Bool) : Policy (Option Place) := do
  if (← get).world.rooms.incrementalCollectionWillFail = false ∨ remote = false then
    doTypeBasedCollection flags env false false false
    afterFirstCollection flags env size isTlab remote
  else
    firstSome (attemptTypeBasedAllocation flags size isTlab false remote) do
      doTypeBasedCollection flags env true false remote
      afterFirstCollection flags env size isTlab remote

/-- `VM_GC_Operation::skip_operation`; DefNew and TransNew are always maximal. -/
def skipOperation (world : World) (gcCountBefore : Nat) : Bool :=
  gcCountBefore != world.totalCollections ||
    (world.gcLockerActive && world.needsGC && world.rooms.uncommitted == 0)

def asVMThread {α : Type} (x : Policy α) : Policy α := fun s =>
  (x { s with thread := .vm }).map fun (a, t) => (a, { t with thread := s.thread })

/-- `VMThread::execute` of `VM_TypeGenCollectForAllocation`: `none` if the prologue failed. -/
def collectForAllocation (gcCountBefore : Nat) (remote : Bool) : Policy (Option (Option Place)) := do
  if skipOperation (← get).world gcCountBefore then return none
  else
    modify fun s => { s with operation := some ⟨remote, s.world, s.thread⟩ }
    return some (← asVMThread (satisfyFailedTypeBasedAllocation flags env size isTlab remote))

/-- The attempts of one round: without the heap lock in the chosen generation, then with it. -/
def attemptRound (remote : Bool) (tryCount : Nat) (firstOnly : Bool) : Policy (Option Place) :=
  firstSome
    (if remote then tryTransNew size
      else attempt (pure (defNewShouldAllocate flags size isTlab)) (defNewParAllocate size))
    do
      modifyWorld (env.others (3 * tryCount))
      firstSome (attemptTypeBasedAllocation flags size isTlab firstOnly remote)
        (if remote then attemptTypeBasedAllocation flags size isTlab firstOnly false else return none)

/-- Whether this round goes to the collection without an attempt. -/
def triggerGC : Policy Bool := do
  if flags.normalGCInvoke then return false
  else if flags.gcFreq = 0 then failure
  else return (1 + (← get).world.objCount) % flags.gcFreq == 0

/-- The part of a round after its attempts have failed; `again` is the next round. -/
def collectOrRetry (remote : Bool) (tryCount : Nat) (gcCountBefore : Nat)
    (again : Policy (Option Place)) : Policy (Option Place) := do
  if remote = false ∨ tryCount ≥ 3 then
    modifyWorld (env.others (3 * tryCount + 1))
    match ← collectForAllocation flags env size isTlab gcCountBefore remote with
    | some result => return result
    | none => again
  else again

/-- The retry loop. The collection count is not read when no attempt is made. -/
def allocateLoop (remote : Bool) : Nat → Nat → Bool → Policy (Option Place)
  | 0, _, _ => failure
  | fuel + 1, tryCount, firstOnly => do
    modifyWorld (env.others (3 * tryCount + 2))
    if ← triggerGC flags then
      collectOrRetry flags env size isTlab remote tryCount (env.garbage tryCount)
        (allocateLoop remote fuel (tryCount + 1) firstOnly)
    else
      let firstOnly := firstOnly && tryCount < 2
      firstSome (attemptRound flags env size isTlab remote tryCount firstOnly) do
        collectOrRetry flags env size isTlab remote tryCount (← get).world.totalCollections
          (allocateLoop remote fuel (tryCount + 1) firstOnly)

def Thread.hasValidTransID : Thread → Bool
  | .java thread => thread.hasValidTransID
  | .vm => false

/-- The VM operation takes the first Collectable eden, and the given one if there is none. -/
def invokeTransEdenCollection (transEdenID : Nat) : Policy Unit := do
  let gcCountBefore := (← get).world.totalCollections
  modifyWorld (env.others 0)
  if skipOperation (← get).world gcCountBefore then return ()
  else
    unlessLocked fun s =>
      let outcome := env.transEdenOutcome s.world
      (collectTransEden flags outcome s.world.gen
        ((firstCollectable s.world.gen).getD transEdenID)).map fun gen =>
          ((), { s with world := s.world.collected outcome gen })

/-- `collectResettableTransEden`; an eden that is given back is empty. -/
def collectResettableTransEden : Policy Bool := fun s =>
  let world := s.world
  let (didSomething, gen) := world.gen.collectResettableTransEden world.trainingDone
    flags.pretenure flags.avoidCollectTrained
  let transEden := fun id =>
    if world.gen.transEdens[id]? = gen.transEdens[id]? then world.rooms.transEden id
    else world.transEdenCapacity id
  some (didSomething,
    { s with world := { world with gen := gen, rooms := { world.rooms with transEden := transEden } } })

/-- A thread that finds edens collectable and none available gives back those that need no
evacuation, and asks for a collection if there are none. -/
def reclaimTransEdens : Policy Unit := do
  let gen := (← get).world.gen
  if gen.collectableCount ≥ 1 ∧ gen.availableCount < 1 then
    if ← collectResettableTransEden flags then return ()
    else invokeTransEdenCollection flags env 2
  else return ()

/-- Whether the request goes to TransNew. -/
def chooseRemote (remote : Bool) : Policy Bool := do
  if remote then
    reclaimTransEdens flags env
    transNewShouldAllocate
  else return false

def memAllocateWithPretenuring (fuel : Nat) (pretenure : Bool) : Policy (Option Place) := do
  let remote := Thread.hasValidTransID (← get).thread
  firstSome
    (if flags.pretenureToOld ∧ remote ∧ pretenure then tryTenured size isTlab else return none)
    do
      let remote ← chooseRemote flags env (remote && !pretenure)
      allocateLoop flags env size isTlab remote fuel 1 true

end Policy

/-! ## A small configuration -/

/-- One transaction eden of 16 words and ample room everywhere. -/
def roomy : World where
  gen := .initial 1
  transEdenCapacity := fun _ => 16
  isFoundTCPAcceptThread := true
  trainingDone := false
  rooms := ⟨16, 16, false, fun _ => 16, 16, 16, false⟩
  gcLockerActive := false
  needsGC := false
  totalCollections := 0
  objCount := 0

def plainFlags : Flags where
  pretenureToOld := true
  normalGCInvoke := true
  gcFreq := 1
  debugTypeGenGC := false
  collectGen0First := false
  pretenure := true
  avoidCollectTrained := false
  pretenureSizeThresholdWords := 0
  pageWords := 1
  minHeapDeltaWords := 1
  pageWords_pos := Nat.one_pos

/-- Nobody interferes, and a collection leaves the rooms as they are. -/
def quiet : Environment where
  others := fun _ world => world
  outcome := fun world _ _ _ => ⟨world.rooms, false, true, false⟩
  transEdenOutcome := fun world => ⟨world.rooms, false, true, false⟩
  garbage := fun _ => 0

def worker : JavaThread := ⟨7, -1, false, true, 0⟩

end AllocationPolicy
