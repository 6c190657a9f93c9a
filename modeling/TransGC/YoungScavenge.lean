import TransGC.ObjectHeap

/-!
# Scavenging gen0

`DefNewGeneration::collect` under the TypeGen policy: `gen_process_strong_roots` for level 0, where
all of TransNew is scanned as roots, the followers closure, `process_discovered_references`, and the
exchange of the survivor spaces or the undo after a failed promotion. An object goes to to-space or,
if it is too old or does not fit, to Tenured; each of the two has its own saved mark, a number of
objects. A loop that has used up its rounds sets `aborted`, and so does the guarantee at the end of
the followers closure.
-/
namespace YoungScavenge
open EdenTable MarkWord ObjectHeap Function

/-- A contiguous space; `limit` is its `end`. -/
structure Space where
  bottom : Nat
  top : Nat
  limit : Nat
  objects : List Nat

def Space.isEmpty (space : Space) : Bool := space.top == space.bottom

def Space.clear (space : Space) : Space := { space with top := space.bottom, objects := [] }

/-- Where a surviving object can go. -/
inductive Destination where
  | toSpace
  | tenured
  deriving DecidableEq, Repr

def Destination.region : Destination → Region
  | .toSpace => .gen0
  | .tenured => .old

/-- With the spaces of gen0 told apart. `displaced` holds the headers of locked objects. -/
structure YoungHeap extends Memory where
  displaced : Nat → Nat
  cards : Region → Nat → Card
  eden : Space
  fromSpace : Space
  room : Destination → Space
  transNew : TransNewGeneration
  perm : List Nat
  tenuringThreshold : Nat
  incrementalCollectionWillFail : Bool

namespace YoungHeap

/-- The heap as the collection of an eden sees it. -/
def heap (young : YoungHeap) : Heap where
  toMemory := young.toMemory
  cards := young.cards
  gen0 := young.eden.objects ++ young.fromSpace.objects ++ (young.room .toSpace).objects
  transNew := young.transNew
  old := (young.room .tenured).objects
  oldTop := (young.room .tenured).top
  perm := young.perm

/-- The objects that a scavenge moves. -/
def sources (young : YoungHeap) : List Nat := young.eden.objects ++ young.fromSpace.objects

/-- The objects of TransNew, in the order of its edens. -/
def edenObjects (young : YoungHeap) : List Nat :=
  young.transNew.transEdens.flatMap TransEden.objects

/-- `oopDesc::age`. -/
def age (young : YoungHeap) (a : Nat) : Nat :=
  if hasDisplacedMark (young.mark a) then
    MarkWord.age (young.displaced (displacedPointer (young.mark a)))
  else MarkWord.age (young.mark a)

/-- `DefNewGeneration::used` in words. -/
def used (young : YoungHeap) : Nat :=
  (young.eden.top - young.eden.bottom) + (young.fromSpace.top - young.fromSpace.bottom)

def swapSpaces (young : YoungHeap) : YoungHeap :=
  { young with
    fromSpace := young.room .toSpace
    room := update young.room .toSpace young.fromSpace }

end YoungHeap

/-- The data of a collection of an eden, whose index plays no part. `clears` is the soft reference
policy when discovered references are processed, `worstCaseEvacuation` scales by
`MaxLiveObjectEvacuationRatio`, and `paddedAverage` is the padded average of what earlier
collections promoted, both in words. -/
structure Scavenger extends Collector where
  clears : Nat → Bool
  worstCaseEvacuation : Nat → Nat
  paddedAverage : Nat
  maxTenuringThreshold : Nat
  targetSurvivorRatio : Nat

namespace Scavenger

variable (c : Scavenger)

/-- The boundaries of the scanning closures: all of gen0. -/
def inGen0 (a : Nat) : Bool := c.start .gen0 ≤ a && a < c.start .gen1

def forwardee (young : YoungHeap) (a : Nat) : Nat :=
  decodePointer c.useBiasedLocking (young.mark a) / 8

end Scavenger

/-- A scavenge in progress. -/
structure Scan extends YoungHeap where
  savedMark : Destination → Nat
  promotionFailed : Bool
  preserved : List (Nat × Nat)
  failureStack : List Nat
  discovering : Bool
  discovered : ReferenceType → List Nat
  ageTable : Nat → Nat
  aborted : Bool

namespace Scan

def store (σ : Scan) (s : Slot) (value : Nat) : Scan :=
  { σ with toMemory := σ.toMemory.store s value }

def forwardTo (σ : Scan) (a target : Nat) : Scan :=
  { σ with toMemory := σ.toMemory.forwardTo a target }

/-- The object copied to the top of a space. -/
def copyTo (σ : Scan) (d : Destination) (a : Nat) : Scan :=
  let target := (σ.room d).top
  { σ with
    toMemory := σ.toMemory.copy a target
    room := update σ.room d
      { σ.room d with
        top := target + (σ.klass a).size
        objects := (σ.room d).objects ++ [target] } }

/-- `oopDesc::incr_age`: the age lies in the displaced header if there is one. -/
def incrAge (σ : Scan) (a : Nat) : Scan :=
  let header := displacedPointer (σ.mark a)
  { σ with
    displaced :=
      if hasDisplacedMark (σ.mark a) then
        update σ.displaced header (MarkWord.incrAge (σ.displaced header))
      else σ.displaced
    mark :=
      if hasDisplacedMark (σ.mark a) then σ.mark
      else update σ.mark a (MarkWord.incrAge (σ.mark a)) }

/-- `ageTable::add`. -/
def addAge (σ : Scan) (a size : Nat) : Scan :=
  { σ with ageTable := update σ.ageTable (σ.age a) (σ.ageTable (σ.age a) + size) }

def addDiscovered (σ : Scan) (kind : ReferenceType) (r : Nat) : Scan :=
  { σ with discovered := update σ.discovered kind (r :: σ.discovered kind) }

/-- `DiscoveredListIterator::remove`. -/
def removeDiscovered (σ : Scan) (kind : ReferenceType) (r : Nat) : Scan :=
  { σ with
    discovered := update σ.discovered kind
      ((σ.discovered kind).filter fun other => other ≠ r) }

/-- One more object of the space lies below its saved mark. -/
def advance (σ : Scan) (d : Destination) : Scan :=
  { σ with savedMark := update σ.savedMark d (σ.savedMark d + 1) }

end Scan

section Closures

variable (c : Scavenger)

/-! ### Copying an object -/

def fits (σ : Scan) (d : Destination) (a : Nat) : Bool :=
  (σ.room d).top + (σ.klass a).size ≤ (σ.room d).limit

/-- To-space unless the object is too old for it, else Tenured, which expands if need be. -/
def destination (σ : Scan) (a : Nat) : Option Destination :=
  if σ.age a < σ.tenuringThreshold && fits σ .toSpace a then some .toSpace
  else if fits σ .tenured a && c.grants a then some .tenured
  else none

/-- The object is forwarded to the copy; one that stays in gen0 is one collection older. -/
def evacuate (σ : Scan) (d : Destination) (a : Nat) : Scan :=
  let target := (σ.room d).top
  let copied := σ.copyTo d a
  match d with
  | .toSpace => ((copied.incrAge target).addAge target (σ.klass a).size).forwardTo a target
  | .tenured => copied.forwardTo a target

def preserveMarkIfNecessary (σ : Scan) (a : Nat) : Scan :=
  { σ with
    preserved :=
      if mustBePreserved c.useBiasedLocking (σ.mark a) (σ.klass a).prototypeHeader then
        σ.preserved ++ [(a, σ.mark a)]
      else σ.preserved }

/-- `handle_promotion_failure` up to the drain. -/
def handlePromotionFailure (σ : Scan) (a : Nat) : Scan :=
  { (preserveMarkIfNecessary c σ a).forwardTo a a with
    promotionFailed := true
    failureStack := a :: σ.failureStack }

def copyToSurvivorSpace (drain : Scan → Scan) (σ : Scan) (a : Nat) : Nat × Scan :=
  match destination c σ a with
  | some d => ((σ.room d).top, evacuate σ d a)
  | none => (a, drain (handlePromotionFailure c σ a))

/-- The common part of the closures, for a slot that points into gen0. -/
def redirect (drain : Scan → Scan) (σ : Scan) (s : Slot) : Scan :=
  let obj := σ.words s
  if σ.isForwarded obj then σ.store s (c.forwardee σ.toYoungHeap obj)
  else
    let copied := copyToSurvivorSpace c drain σ obj
    copied.2.store s copied.1

/-! ### Scanning -/

def doBarrier (region : Region) (σ : Scan) (s : Slot) : Scan :=
  { σ with cards := c.doBarrier σ.heap region s }

/-- `FastScanClosure::do_oop_work`; the closure has a barrier if it is set to a generation. -/
def fastScan (drain : Scan → Scan) (barrier : Option Region) (σ : Scan) (s : Slot) : Scan :=
  if σ.words s = 0 then σ
  else
    let σ :=
      if c.inGen0 (σ.words s) then
        let σ := redirect c drain σ s
        barrier.elim σ fun region => doBarrier c region σ s
      else σ
    barrier.elim σ fun region => doBarrier c region σ s

/-- `discover_reference` under `ReferenceBasedDiscovery`: `none` if it returns false. -/
def discoverReference (σ : Scan) (r : Nat) (kind : ReferenceType) : Option Scan :=
  if σ.discovering = false then none
  else if σ.words (.field r nextOffset) ≠ 0 then none
  else if c.inGen0 r = false then none
  else if kind = .soft ∧ c.shouldClear r = false then none
  else if r ∈ σ.discovered kind then some σ
  else if kind = .other then none
  else some (σ.addDiscovered kind r)

def iterateReference (doOop : Scan → Slot → Scan) (σ : Scan) (obj : Nat) (kind : ReferenceType) :
    Scan :=
  let referent := σ.words (.field obj referentOffset)
  if referent = 0 then doOop σ (.field obj nextOffset)
  else
    match if σ.isForwarded referent then none else discoverReference c σ obj kind with
    | some σ => σ
    | none => doOop (doOop σ (.field obj referentOffset)) (.field obj nextOffset)

/-- `oop_iterate` of an object with a closure. -/
def oopIterate (doOop : Scan → Slot → Scan) (σ : Scan) (obj : Nat) : Scan :=
  let σ := (σ.klass obj).oops.foldl (fun σ offset => doOop σ (.field obj offset)) σ
  match (σ.klass obj).reference with
  | none => σ
  | some kind => iterateReference c doOop σ obj kind

def drainPromoFailureScanStack : Nat → Scan → Scan
  | 0, σ => { σ with aborted := true }
  | fuel + 1, σ =>
    match σ.failureStack with
    | [] => σ
    | obj :: rest =>
      drainPromoFailureScanStack fuel
        (oopIterate c (fastScan c id none) { σ with failureStack := rest } obj)

/-- A round for each object of gen0 and one to notice the end. -/
def rounds (σ : Scan) : Nat := σ.sources.length + 1

def drain (σ : Scan) : Scan := drainPromoFailureScanStack c (rounds σ) σ

def scanSlot (barrier : Option Region) (σ : Scan) (s : Slot) : Scan :=
  fastScan c (drain c) barrier σ s

/-! ### Strong roots -/

def filtered (region : Region) (cards : Nat → Card) (isArray : Bool) (σ : Scan) (s : Slot) : Scan :=
  match s with
  | .field obj offset =>
    if onScannedCard cards isArray obj offset && σ.words s < c.start region then
      scanSlot c (some region) σ s
    else σ
  | _ => σ

/-- The slots on the non-clean cards of a space that point below its generation. Cards that the
barrier dirties on the way lie behind the walk. -/
def youngerRefsIterate (region : Region) (objects : List Nat) (σ : Scan) : Scan :=
  let cards := σ.cards region
  objects.foldl (fun σ obj =>
    oopIterate c (filtered c region cards (σ.klass obj).isArray) σ obj) σ

def oopIterateSpace (region : Region) (objects : List Nat) (σ : Scan) : Scan :=
  objects.foldl (oopIterate c (scanSlot c (some region))) σ

def processStrongRoots (σ : Scan) : Scan :=
  ((List.range c.rootCount).map Slot.root).foldl (scanSlot c none) σ

/-- `gen_process_strong_roots` for level 0: TransNew is not walked by cards but as a whole. -/
def genProcessStrongRoots (σ : Scan) : Scan :=
  let σ := processStrongRoots c σ
  let σ := youngerRefsIterate c .perm σ.perm σ
  let σ := oopIterateSpace c .gen1 σ.edenObjects σ
  youngerRefsIterate c .old ((σ.room .tenured).objects.take (σ.savedMark .tenured)) σ

/-! ### Followers -/

/-- Scan what was copied to a space since its saved mark, with what that copies to it. -/
def sinceSaveMarks (d : Destination) : Nat → Scan → Scan
  | 0, σ => { σ with aborted := true }
  | fuel + 1, σ =>
    match (σ.room d).objects[σ.savedMark d]? with
    | none => σ
    | some obj =>
      sinceSaveMarks d fuel (oopIterate c (scanSlot c (some d.region)) (σ.advance d) obj)

/-- `oop_since_save_marks_iterate` for level 0. Nothing is allocated in the other spaces. -/
def oopSinceSaveMarksIterate (σ : Scan) : Scan :=
  let σ := sinceSaveMarks c .toSpace (rounds σ) σ
  sinceSaveMarks c .tenured (rounds σ) σ

def noAllocsSinceSaveMarks (σ : Scan) : Bool :=
  σ.savedMark .toSpace == (σ.room .toSpace).objects.length &&
    σ.savedMark .tenured == (σ.room .tenured).objects.length

def evacuateFollowersLoop : Nat → Scan → Scan
  | 0, σ => { σ with aborted := true }
  | fuel + 1, σ =>
    let σ := oopSinceSaveMarksIterate c σ
    if noAllocsSinceSaveMarks σ then σ else evacuateFollowersLoop fuel σ

/-- `FastEvacuateFollowersClosure::do_void`, with the guarantee at its end. -/
def evacuateFollowers (σ : Scan) : Scan :=
  let σ := evacuateFollowersLoop c (rounds σ) σ
  if σ.failureStack = [] then σ else { σ with aborted := true }

/-! ### Weak references -/

def isAlive (σ : Scan) (a : Nat) : Bool := !c.inGen0 a || σ.isForwarded a

def keepAliveCard (young : YoungHeap) (s : Slot) : Region → Nat → Card :=
  match s with
  | .field obj offset =>
    let value := young.words s
    let own := c.regionOf (obj + offset)
    if value < c.start own then writeCard young.cards own (obj + offset) .youngergen
    else if own = .gen0 ∧ c.regionOf value = .gen1 then
      writeCard young.cards own (obj + offset) .localToRemote
    else young.cards
  | _ => young.cards

/-- `to()->is_in_reserved`. -/
def inToSpace (σ : Scan) (a : Nat) : Bool :=
  (σ.room .toSpace).bottom ≤ a && a < (σ.room .toSpace).limit

/-- `FastKeepAliveClosure::do_oop_work` over `ScanWeakRefClosure`, which leaves a reference alone
that was brought up to date before. -/
def keepAlive (σ : Scan) (s : Slot) : Scan :=
  let σ :=
    if c.inGen0 (σ.words s) && !inToSpace σ (σ.words s) then redirect c (drain c) σ s else σ
  { σ with cards := keepAliveCard c σ.toYoungHeap s }

def processPhase1 (shouldClear : Nat → Bool) (kind : ReferenceType) (σ : Scan) : Scan :=
  (σ.discovered kind).foldl (fun σ r =>
    let referent := σ.words (.field r referentOffset)
    if referent ≠ 0 ∧ isAlive c σ referent = false ∧ shouldClear r = false then
      keepAlive c (((σ.removeDiscovered kind r).store (.field r nextOffset) 0))
        (.field r referentOffset)
    else σ) σ

def processPhase2 (kind : ReferenceType) (σ : Scan) : Scan :=
  (σ.discovered kind).foldl (fun σ r =>
    if isAlive c σ (σ.words (.field r referentOffset)) then
      keepAlive c (σ.removeDiscovered kind r) (.field r referentOffset)
    else σ) σ

def processPhase3 (clearReferent : Bool) (kind : ReferenceType) (σ : Scan) : Scan :=
  (σ.discovered kind).foldl (fun σ r =>
    if clearReferent then σ.store (.field r referentOffset) 0
    else keepAlive c σ (.field r referentOffset)) σ

def processDiscoveredReflist (policy : Option (Nat → Bool)) (clearReferent : Bool)
    (kind : ReferenceType) (σ : Scan) : Scan :=
  let σ :=
    match policy with
    | some shouldClear => evacuateFollowers c (processPhase1 c shouldClear kind σ)
    | none => σ
  evacuateFollowers c (processPhase3 c clearReferent kind (processPhase2 c kind σ))

/-- `JNIHandles::weak_oops_do`. -/
def weakOopsDo (σ : Scan) : Scan :=
  ((List.range c.weakRootCount).map Slot.weakRoot).foldl (fun σ s =>
    if σ.words s = 0 then σ
    else if isAlive c σ (σ.words s) then keepAlive c σ s
    else σ.store s 0) σ

def processDiscoveredReferences (σ : Scan) : Scan :=
  let σ := processDiscoveredReflist c (some c.clears) true .soft { σ with discovering := false }
  let σ := processDiscoveredReflist c none true .weak σ
  let σ := processDiscoveredReflist c none false .final σ
  let σ := processDiscoveredReflist c none false .phantom σ
  evacuateFollowers c (weakOopsDo c σ)

/-! ### The whole collection -/

def startScan (young : YoungHeap) : Scan where
  toYoungHeap := young
  savedMark := fun d => (young.room d).objects.length
  promotionFailed := false
  preserved := []
  failureStack := []
  discovering := true
  discovered := fun _ => []
  ageTable := fun _ => 0
  aborted := false

def scavenge (young : YoungHeap) : Scan :=
  processDiscoveredReferences c
    (evacuateFollowers c (genProcessStrongRoots c (startScan young)))

/-- Objects of eden and from-space get their prototype mark, then preserved marks are put back. -/
def removeForwardingPointers (σ : Scan) : Scan :=
  let σ := { σ with
    mark := σ.sources.foldl
      (fun mark obj => update mark obj (σ.klass obj).prototypeHeader) σ.mark }
  { σ with
    mark := σ.preserved.foldl (fun mark saved => update mark saved.1 saved.2) σ.mark
    preserved := [] }

/-- The first age at which the survivors so far are more than desired. -/
def tenuringAge (sizes : Nat → Nat) (desired : Nat) : Nat → Nat → Nat → Nat
  | 0, _, age => age
  | fuel + 1, total, age =>
    if desired < total + sizes age then age
    else tenuringAge sizes desired fuel (total + sizes age) (age + 1)

def computeTenuringThreshold (sizes : Nat → Nat) (survivorCapacity : Nat) : Nat :=
  min (tenuringAge sizes (survivorCapacity * c.targetSurvivorRatio / 100) maxAge 0 1)
    c.maxTenuringThreshold

def endScan (σ : Scan) : YoungHeap :=
  if σ.promotionFailed then
    { (removeForwardingPointers σ).swapSpaces with incrementalCollectionWillFail := true }
  else
    let swapped := { σ.toYoungHeap with
      eden := σ.eden.clear
      fromSpace := σ.fromSpace.clear }.swapSpaces
    let survivor := swapped.room .toSpace
    { swapped with
      tenuringThreshold :=
        computeTenuringThreshold c σ.ageTable (survivor.limit - survivor.bottom) }

def promotionAttemptIsSafe (young : YoungHeap) (maxPromotion : Nat) : Bool :=
  let available := (young.room .tenured).limit - (young.room .tenured).top
  decide (maxPromotion ≤ available) || decide (c.paddedAverage ≤ available)

def collectionAttemptIsSafe (young : YoungHeap) : Bool :=
  (young.room .toSpace).isEmpty &&
    promotionAttemptIsSafe c young (c.worstCaseEvacuation young.used)

/-- How a collection ends. `finished` also holds the state in which the scan ended. -/
inductive Collected where
  | returned (young : YoungHeap)
  | finished (scanned : Scan) (young : YoungHeap)

/-- `DefNewGeneration::collect`; no result if the scan does not come to its end. -/
def collect (young : YoungHeap) : Option Collected :=
  if collectionAttemptIsSafe c young then
    let cleared := { young with
      room := update young.room .toSpace (young.room .toSpace).clear }
    let σ := scavenge c cleared
    if σ.aborted then none else some (.finished σ (endScan c σ))
  else some (.returned { young with incrementalCollectionWillFail := true })

end Closures

end YoungScavenge
