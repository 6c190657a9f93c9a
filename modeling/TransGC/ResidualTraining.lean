import TransGC.ThreadEvents

/-!
# Residual training

While the training lasts, each collection of a transaction eden flags the classes of the objects
that survived it. Once the set of flagged classes has stopped growing, new edens count as trained:
instances of flagged classes are allocated outside the eden, and the eden is emptied without a
look at what it holds.

Objects go by names that no collection changes. Allocation buffers are left out; an object that
a thread allocates in its buffer goes to the eden that the table gives the thread.
-/
namespace ResidualTraining
open EdenTable Function

structure Flags extends ThreadEvents.Flags where
  transGC : Bool
  applyWhileTraining : Bool
  examineResiduals : Bool
  stillCurious : Bool
  noPretenuringBytes : Bool
  pretenureToOld : Bool
  debugTypeGenGC : Bool
  trainingAfterGC : Nat
  unchangedTimeForTrainingEnd : Nat
  /-- The class of byte arrays. -/
  byteArray : Nat

/-- A root is held by a thread, or by the virtual machine itself. The fields of what is no object
any more are empty. `owner` and `pretenured` are recorded when an object is allocated. -/
structure VM where
  machine : ThreadEvents.VM
  isResidual : Nat → Bool
  gcCount : Nat
  residualUnchangedTime : Nat
  totalResidualCount : Nat
  roots : List (Option Nat × Nat)
  fields : Nat → List (Option Nat)
  klass : Nat → Nat
  gen0 : List Nat
  old : List Nat
  perm : List Nat
  next : Nat
  owner : Nat → Int
  pretenured : Nat → Bool

namespace VM

/-- Before the first transaction: some permanent objects, which hold the static fields. -/
def initial (maxTransEden statics width : Nat) : VM where
  machine := ThreadEvents.VM.initial maxTransEden
  isResidual := fun _ => false
  gcCount := 0
  residualUnchangedTime := 0
  totalResidualCount := 0
  roots := (List.range statics).map fun obj => (none, obj)
  fields := fun obj => if obj < statics then List.replicate width none else []
  klass := fun _ => 0
  gen0 := []
  old := []
  perm := List.range statics
  next := statics
  owner := fun _ => -1
  pretenured := fun _ => false

def holds (vm : VM) (ostid obj : Nat) : Bool :=
  vm.roots.contains (some ostid, obj) || vm.roots.contains (none, obj)

/-- The objects are no longer there. -/
def drop (vm : VM) (objects : List Nat) : VM :=
  { vm with fields := fun obj => if obj ∈ objects then [] else vm.fields obj }

def references (vm : VM) (sources : List Nat) : List Nat :=
  (sources.flatMap vm.fields).filterMap id

def allObjects (vm : VM) : List Nat :=
  vm.gen0 ++ vm.machine.gen.transEdens.flatMap TransEden.objects ++ vm.old ++ vm.perm

/-- Whether `kept` holds what a root, an object elsewhere or an object of `kept` refers to. -/
def survive (vm : VM) (collected kept : List Nat) : Bool :=
  kept.all collected.contains &&
    (vm.roots.map Prod.snd ++
      vm.references (vm.allObjects.filter (fun obj => !collected.contains obj) ++ kept)).all
      fun obj => !collected.contains obj || kept.contains obj

end VM

/-! ### Training -/

section Training

variable (flags : Flags)

/-- One round of the loop of `ContiguousSpace::examine_type_of_objects`. -/
def examineObject (vm : VM) (obj : Nat) : VM :=
  let k := vm.klass obj
  if vm.isResidual k = false ∧ (flags.noPretenuringBytes = false ∨ k ≠ flags.byteArray) then
    { vm with
      isResidual := update vm.isResidual k true
      totalResidualCount := vm.totalResidualCount + 1 }
  else vm

def examineTypeOfObjects (promoted : List Nat) (vm : VM) : VM :=
  promoted.foldl (examineObject flags) vm

/-- The two counters are `int` in the source and do not wrap here: a run is taken to train in fewer
than `2 ^ 31` collections. -/
def trainingResidual (promoted : List Nat) (vm : VM) : VM :=
  let vm := { vm with gcCount := vm.gcCount + 1 }
  if vm.gcCount ≤ flags.trainingAfterGC then vm
  else if vm.residualUnchangedTime < flags.unchangedTimeForTrainingEnd then
    let examined := examineTypeOfObjects flags promoted vm
    { examined with
      residualUnchangedTime :=
        if examined.totalResidualCount = vm.totalResidualCount then vm.residualUnchangedTime + 1
        else 0 }
  else { vm with machine := { vm.machine with trainingDone := true } }

/-- What a successful collection of the eden does with the objects it promoted. -/
def examineResiduals (eden : TransEden) (promoted : List Nat) (vm : VM) : VM :=
  let vm :=
    if flags.examineResiduals = true ∧ vm.machine.trainingDone = false then
      trainingResidual flags promoted vm
    else vm
  if flags.examineResiduals = true ∧ eden.trained = true ∧ flags.stillCurious = true then
    examineTypeOfObjects flags promoted vm
  else vm

/-! ### Allocation -/

/-- The value of `pretenure` in `CollectedHeap::common_mem_allocate_noinit`. -/
def shouldPretenure (vm : VM) (klass : Nat) : Bool :=
  let pretenure :=
    if flags.transGC = true ∧ flags.applyWhileTraining = true then vm.isResidual klass
    else if vm.machine.trainingDone then vm.isResidual klass else false
  if flags.pretenure = false then false else pretenure

/-- Whether it takes the path through `common_mem_allocate_noinit`, and who has room. -/
structure Route where
  slowPath : Bool
  tenuredTakes : Bool
  edenTakes : Bool
  defNewTakes : Bool
  deriving DecidableEq

/-- A new object with null fields, which the thread refers to. -/
def newObject (vm : VM) (ostid klass width : Nat) (transID : Int) (pretenure : Bool) : VM :=
  { vm with
    next := vm.next + 1
    roots := (some ostid, vm.next) :: vm.roots
    fields := update vm.fields vm.next (List.replicate width none)
    klass := update vm.klass vm.next klass
    owner := update vm.owner vm.next transID
    pretenured := update vm.pretenured vm.next pretenure }

def putLocal (vm : VM) (route : Route) (obj : Nat) : VM :=
  if route.defNewTakes then { vm with gen0 := vm.gen0 ++ [obj] }
  else { vm with old := vm.old ++ [obj] }

def putInEden (vm : VM) (id obj : Nat) : VM :=
  match vm.machine.gen.transEdens[id]? with
  | some eden =>
    { vm with machine := { vm.machine with
        gen := vm.machine.gen.setTransEden id { eden with objects := eden.objects ++ [obj] } } }
  | none => vm

/-- The eden that the table gives a thread, and the machine that the request leaves. -/
def edenToAllocate (machine : ThreadEvents.VM) (ostid : Nat) (thread : JavaThread) :
    Option (Option Nat × ThreadEvents.VM) :=
  (machine.gen.getTransEdenToAllocateNolock machine.isFoundTCPAcceptThread machine.trainingDone
    (.java thread)).map fun out =>
      (out.eden, match out.thread with
        | .java thread => { machine.setThread ostid thread with gen := out.gen }
        | .vm => machine)

/-- `mem_allocate_with_pretenuring`, as far as it decides where the object goes. -/
def allocate (vm : VM) (ostid klass width : Nat) (route : Route) : Option VM :=
  (vm.machine.threads ostid).bind fun thread =>
    let pretenure := route.slowPath && shouldPretenure flags vm klass
    let born := newObject vm ostid klass width thread.transID pretenure
    if thread.hasValidTransID = false then some (putLocal born route vm.next)
    else if pretenure then
      if flags.pretenureToOld = true ∧ route.tenuredTakes = true then
        some { born with old := born.old ++ [vm.next] }
      else some (putLocal born route vm.next)
    else
      (edenToAllocate vm.machine ostid thread).map fun given =>
        let born := { born with machine := given.2 }
        match given.1 with
        | some id => if route.edenTakes then putInEden born id vm.next else putLocal born route vm.next
        | none => putLocal born route vm.next

/-! ### Collections -/

/-- The objects go from the eden to Tenured. -/
def promoteFrom (vm : VM) (id : Nat) (eden : TransEden) (promoted : List Nat) : VM :=
  { vm with
    machine := { vm.machine with
      gen := vm.machine.gen.setTransEden id
        { eden with objects := eden.objects.filter fun obj => !promoted.contains obj } }
    old := vm.old ++ promoted }

/-- `collectTransEden`: the shortcut, the refusal, or an evacuation that promotes the given
objects. -/
def collectTransEden (vm : VM) (collectionAttemptIsSafe promotionFailed : Bool)
    (promoted : List Nat) (id : Nat) : Option VM :=
  let table := fun vm : VM =>
    (ThreadEvents.collectTransEden flags.toFlags vm.machine collectionAttemptIsSafe promotionFailed
      false id).map fun machine => { vm with machine := machine }
  (vm.machine.gen.transEdens[id]?).bind fun eden =>
    if eden.state ≠ .collectable then table vm
    else if eden.trained = true ∧ flags.avoidCollectTrained = true then table (vm.drop eden.objects)
    else if collectionAttemptIsSafe = false then table vm
    else if promotionFailed then
      if promoted.all eden.objects.contains then table (promoteFrom vm id eden promoted) else none
    else if vm.survive eden.objects promoted then
      table (examineResiduals flags eden promoted ((promoteFrom vm id eden promoted).drop
        (eden.objects.filter fun obj => !promoted.contains obj)))
    else none

def isResettable (eden : TransEden) : Bool := eden.state = .collectable && eden.trained

/-- The objects below the tops that `collectResettableTransEden` resets. -/
def resettableObjects (vm : VM) : List Nat :=
  if vm.machine.trainingDone = false ∨ flags.pretenure = false ∨ flags.avoidCollectTrained = false then []
  else (vm.machine.gen.transEdens.filter isResettable).flatMap TransEden.objects

def collectResettableTransEden (vm : VM) : VM :=
  { vm.drop (resettableObjects flags vm) with
    machine := { vm.machine with
      gen := (vm.machine.gen.collectResettableTransEden vm.machine.trainingDone flags.pretenure
        flags.avoidCollectTrained).2 } }

/-- A scavenge of DefNew, which keeps some objects and promotes others. -/
def collectDefNew (vm : VM) (kept promoted : List Nat) : Option VM :=
  if vm.survive vm.gen0 (kept ++ promoted) then
    some { vm.drop (vm.gen0.filter fun obj => !(kept ++ promoted).contains obj) with
      gen0 := kept
      old := vm.old ++ promoted }
  else none

/-- A full collection: what is left lies in DefNew and Tenured. The edens keep their states and
transactions unless the debug flag is on. -/
def collectFull (vm : VM) (gen0 old : List Nat) : Option VM :=
  let gen := { vm.machine.gen with transEdens := vm.machine.gen.transEdens.map TransEden.clear }
  if vm.survive (vm.allObjects.filter fun obj => !vm.perm.contains obj) (gen0 ++ old) then
    some { vm with
      fields := fun obj => if obj ∈ vm.perm ++ gen0 ++ old then vm.fields obj else []
      gen0 := gen0
      old := old
      machine := { vm.machine with
        gen := if flags.debugTypeGenGC then gen.resetTransEdens else gen } }
  else none

end Training

/-! ### The step system -/

inductive Event where
  | thread (e : ThreadEvents.Event)
  | allocate (ostid klass width : Nat) (route : Route)
  | load (ostid obj index : Nat)
  | store (ostid obj index : Nat) (target : Option Nat)
  | forget (ostid obj : Nat)
  | collectTransEden (collectionAttemptIsSafe promotionFailed : Bool) (promoted : List Nat) (id : Nat)
  | collectResettableTransEden
  | collectDefNew (kept promoted : List Nat)
  | collectFull (gen0 old : List Nat)
  deriving DecidableEq

/-- A thread that has ended refers to nothing. -/
def rootsAfter (roots : List (Option Nat × Nat)) : ThreadEvents.Event → List (Option Nat × Nat)
  | .threadExit ostid => roots.filter fun root => root.1 ≠ some ostid
  | _ => roots

/-- A thread reads and writes the fields of the objects it refers to. -/
def step (flags : Flags) (vm : VM) : Event → Option VM
  | .thread e =>
    if e.actor = none then none
    else (ThreadEvents.step flags.toFlags vm.machine e).map fun machine =>
      { vm with machine := machine, roots := rootsAfter vm.roots e }
  | .allocate ostid klass width route => allocate flags vm ostid klass width route
  | .load ostid obj index =>
    if vm.holds ostid obj then
      match (vm.fields obj)[index]? with
      | some (some target) => some { vm with roots := (some ostid, target) :: vm.roots }
      | _ => some vm
    else none
  | .store ostid obj index target =>
    if vm.holds ostid obj = true ∧ target.all (vm.holds ostid) = true then
      some { vm with fields := update vm.fields obj ((vm.fields obj).set index target) }
    else none
  | .forget ostid obj =>
    some { vm with roots := vm.roots.filter fun root => root ≠ (some ostid, obj) }
  | .collectTransEden safe failed promoted id => collectTransEden flags vm safe failed promoted id
  | .collectResettableTransEden => some (collectResettableTransEden flags vm)
  | .collectDefNew kept promoted => collectDefNew vm kept promoted
  | .collectFull gen0 old => collectFull flags vm gen0 old

end ResidualTraining
