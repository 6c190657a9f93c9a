import TransGC.AllocationPolicy

/-!
# Collections of the three generations

`GenCollectedHeap` under the TypeGen policy, with DefNew, TransNew and Tenured at the levels 0, 1
and 2: `do_type_based_collection` and `collectTransEden`. Of the heap the model keeps the table of
transaction edens, how many bytes the spaces hold, what Tenured stores for its statistics and the
flags that the collections set. A `Collectors` says, for any heap, what a scavenge of DefNew, the
evacuation of an eden and a compaction leave.
-/
namespace GenCollections
open EdenTable

/-- In bytes; the last one of the `promotedSamples` is at the end. -/
structure GenHeap where
  table : TransNewGeneration
  transEdenUsed : List Nat
  edenUsed : Nat
  fromUsed : Nat
  toUsed : Nat
  oldUsed : Nat
  oldCapacity : Nat
  oldReserved : Nat
  capacityAtPrologue : Nat
  usedAtPrologue : Nat
  promotedSamples : List Nat
  incrementalCollectionWillFail : Bool
  lastIncrementalCollectionFailed : Bool
  defNewShouldAllocateFromSpace : Bool
  transNewShouldAllocateFromSpace : Bool

structure Scavenge where
  edenUsed : Nat
  fromUsed : Nat
  toUsed : Nat
  promoted : Nat
  oldCapacity : Nat
  promotionFailed : Bool

structure Evacuation where
  promoted : Nat
  oldCapacity : Nat
  promotionFailed : Bool

structure Compaction where
  edenUsed : Nat
  fromUsed : Nat
  toUsed : Nat
  oldUsed : Nat
  oldCapacity : Nat

/-- `worstCaseEvacuation` scales by `MaxLiveObjectEvacuationRatio`, and `paddedAverage` is the
padded average of the samples. -/
structure Collectors where
  collectGen0First : Bool
  handlePromotionFailure : Bool
  avoidCollectTrained : Bool
  worstCaseEvacuation : Nat → Nat
  paddedAverage : List Nat → Nat
  unsafeMaxAllocNogc : GenHeap → Nat → Nat
  scavenge : GenHeap → (clearAllSoftRefs : Bool) → Scavenge
  evacuate : GenHeap → (id : Int) → Evacuation
  compact : GenHeap → (clearAllSoftRefs : Bool) → Compaction

section Collections

variable (k : Collectors)

/-! ### Whether an attempt is safe -/

namespace GenHeap

def defNewUsed (heap : GenHeap) : Nat := heap.edenUsed + heap.fromUsed

def transNewUsed (heap : GenHeap) : Nat := heap.transEdenUsed.sum

/-- `max_contiguous_available` of Tenured, the oldest generation. -/
def maxContiguousAvailable (heap : GenHeap) : Nat :=
  (heap.oldCapacity - heap.oldUsed) + (heap.oldReserved - heap.oldCapacity)

def promotionAttemptIsSafe (heap : GenHeap) (maxPromotionInBytes : Nat) : Bool :=
  let result := decide (maxPromotionInBytes ≤ heap.maxContiguousAvailable)
  if k.handlePromotionFailure && !result then
    k.paddedAverage heap.promotedSamples ≤ heap.maxContiguousAvailable
  else result

def defNewCollectionAttemptIsSafe (heap : GenHeap) : Bool :=
  heap.toUsed = 0 && heap.promotionAttemptIsSafe k (k.worstCaseEvacuation heap.defNewUsed)

def transNewCollectionAttemptIsSafe (heap : GenHeap) : Bool :=
  heap.promotionAttemptIsSafe k (k.worstCaseEvacuation heap.transNewUsed)

/-! ### The prologue and the epilogue -/

def gcPrologue (heap : GenHeap) : GenHeap :=
  { heap with capacityAtPrologue := heap.oldCapacity, usedAtPrologue := heap.oldUsed }

def defNewGcEpilogue (heap : GenHeap) (full : Bool) : GenHeap :=
  let heap := { heap with defNewShouldAllocateFromSpace := false }
  if heap.defNewCollectionAttemptIsSafe k then { heap with incrementalCollectionWillFail := false }
  else
    { heap with
      incrementalCollectionWillFail := true
      defNewShouldAllocateFromSpace := full }

def transNewGcEpilogue (heap : GenHeap) (full : Bool) : GenHeap :=
  let heap := { heap with transNewShouldAllocateFromSpace := false }
  if heap.transNewCollectionAttemptIsSafe k then
    { heap with incrementalCollectionWillFail := false }
  else
    { heap with
      incrementalCollectionWillFail := true
      transNewShouldAllocateFromSpace := full }

/-- The generations come in the order of their levels; the epilogue of Tenured sets no flag. -/
def gcEpilogue (heap : GenHeap) (full : Bool) : GenHeap :=
  let heap := { heap with
    lastIncrementalCollectionFailed := full && heap.incrementalCollectionWillFail
    incrementalCollectionWillFail := false }
  (heap.defNewGcEpilogue k full).transNewGcEpilogue k full

/-! ### The generations -/

def emptied (heap : GenHeap) (id : Int) : GenHeap :=
  { heap with transEdenUsed := heap.transEdenUsed.set id.toNat 0 }

/-- `DefNewGeneration::collect`. -/
def collectDefNew (heap : GenHeap) (clearAllSoftRefs : Bool) : GenHeap :=
  if heap.defNewCollectionAttemptIsSafe k = false then
    { heap with incrementalCollectionWillFail := true }
  else
    let out := k.scavenge heap clearAllSoftRefs
    { heap with
      edenUsed := out.edenUsed
      fromUsed := out.fromUsed
      toUsed := out.toUsed
      oldUsed := heap.oldUsed + out.promoted
      oldCapacity := out.oldCapacity
      incrementalCollectionWillFail := heap.incrementalCollectionWillFail || out.promotionFailed }

/-- `TransNewGeneration::collectTransEden`; a null dereference has no result. -/
def collectTransEden (heap : GenHeap) (id : Int) : Option GenHeap :=
  let safe := heap.transNewCollectionAttemptIsSafe k
  let out := k.evacuate heap id
  (heap.table.getTransEden id).bind fun eden =>
    (heap.table.collectTransEden k.avoidCollectTrained safe out.promotionFailed id).map fun table =>
      let heap := { heap with table := table }
      if eden.state ≠ .collectable then heap
      else if eden.trained = true ∧ k.avoidCollectTrained = true then heap.emptied id
      else if safe = false then { heap with incrementalCollectionWillFail := true }
      else
        let heap := { heap with
          oldUsed := heap.oldUsed + out.promoted, oldCapacity := out.oldCapacity }
        if out.promotionFailed then { heap with incrementalCollectionWillFail := true }
        else heap.emptied id

/-- `TransNewGeneration::collect`: the first Collectable eden, if there is one. -/
def collectTransNew (heap : GenHeap) : GenHeap :=
  match AllocationPolicy.firstCollectable heap.table with
  | some id => (heap.collectTransEden k id).getD heap
  | none => heap

/-- A compaction of the whole heap, which leaves the transaction edens empty. -/
def collectTenured (heap : GenHeap) (clearAllSoftRefs : Bool) : GenHeap :=
  let out := k.compact heap clearAllSoftRefs
  { heap with
    table := { heap.table with transEdens := heap.table.transEdens.map TransEden.clear }
    transEdenUsed := heap.transEdenUsed.map fun _ => 0
    edenUsed := out.edenUsed
    fromUsed := out.fromUsed
    toUsed := out.toUsed
    oldUsed := out.oldUsed
    oldCapacity := out.oldCapacity }

def tenuredShouldCollect (heap : GenHeap) (full : Bool) (size : Nat) (isTlab : Bool) : Bool :=
  full || AllocationPolicy.tenuredShouldAllocate size isTlab ||
    decide (heap.oldCapacity - heap.oldUsed < 10000) ||
    decide (heap.capacityAtPrologue < heap.oldCapacity)

/-- `TenuredGeneration::update_gc_stats`, for Tenured at level 2. -/
def updateGcStats (heap : GenHeap) (currentLevel : Nat) (full : Bool) : GenHeap :=
  if full = false ∧ currentLevel + 1 = 2 then
    if heap.usedAtPrologue ≤ heap.oldUsed then
      { heap with
        promotedSamples := heap.promotedSamples ++ [heap.oldUsed - heap.usedAtPrologue] }
    else heap
  else heap

end GenHeap

/-! ### `do_type_based_collection` -/

/-- The arguments of a call, and whether the GC locker is active when it is made. -/
structure Call where
  full : Bool
  clearAllSoftRefs : Bool
  size : Nat
  isTlab : Bool
  maxLevel : Fin 3
  remote : Bool
  gcLockerActive : Bool

structure Loop where
  heap : GenHeap
  size : Nat
  maxLevelCollected : Nat

def fullCollectsYoungerGenerations (level : Nat) : Bool := level == 2 && !k.collectGen0First

/-- The oldest generation that will collect all younger ones. -/
def startingLevel (call : Call) : Nat :=
  if call.full then
    ((List.range (call.maxLevel + 1)).reverse.find? (fullCollectsYoungerGenerations k)).getD 0
  else 0

def shouldCollect (call : Call) (loop : Loop) : Nat → Bool
  | 0 => !call.remote
  | 1 => call.remote
  | _ => loop.heap.tenuredShouldCollect call.full loop.size call.isTlab

def collectGeneration (call : Call) (heap : GenHeap) : Nat → GenHeap
  | 0 => heap.collectDefNew k call.clearAllSoftRefs
  | 1 => heap.collectTransNew k
  | _ => heap.collectTenured k call.clearAllSoftRefs

/-- The young generations have allocation buffers. -/
def supportsTlabAllocation (level : Nat) : Bool := level < 2

def collectLevel (call : Call) (loop : Loop) (level : Nat) : Loop :=
  if shouldCollect call loop level then
    let heap := collectGeneration k call loop.heap level
    { heap := heap.updateGcStats level call.full
      size :=
        if (!call.isTlab || supportsTlabAllocation level) &&
            decide (loop.size * 8 ≤ k.unsafeMaxAllocNogc heap level) then 0
        else loop.size
      maxLevelCollected := level }
  else loop

def collectLevels (call : Call) (heap : GenHeap) : Loop :=
  let start := startingLevel k call
  (List.range' start (call.maxLevel + 1 - start)).foldl (collectLevel k call)
    ⟨heap.gcPrologue, call.size, start⟩

/-- Whether the collection turned out to be a major one. -/
def isComplete (call : Call) (heap : GenHeap) : Bool :=
  call.full && call.maxLevel == 2 || (collectLevels k call heap).maxLevelCollected == 2

def doTypeBasedCollection (debugTypeGenGC : Bool) (heap : GenHeap) (call : Call) : GenHeap :=
  if call.gcLockerActive then heap
  else
    let complete := isComplete k call heap
    let collected := (collectLevels k call heap).heap
    let collected :=
      if complete && debugTypeGenGC then { collected with table := collected.table.resetTransEdens }
      else collected
    collected.gcEpilogue k complete

/-! ### `GenCollectedHeap::collectTransEden` -/

/-- The index that TransNew is called with: the first Collectable eden, or the argument. -/
def collectedIndex (table : TransNewGeneration) (id : Int) : Int :=
  (AllocationPolicy.firstCollectable table).elim id fun j => j

def collectOneTransEden (heap : GenHeap) (gcLockerActive : Bool) (id : Int) : Option GenHeap :=
  if gcLockerActive then some heap
  else
    (heap.gcPrologue.collectTransEden k (collectedIndex heap.table id)).map fun heap =>
      (heap.updateGcStats 1 false).gcEpilogue k false

end Collections

end GenCollections
