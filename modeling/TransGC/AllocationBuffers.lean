import TransGC.AllocationPolicy
import TransGC.ThreadEvents
import TransGC.TransitionRuns

/-!
# Thread-local allocation buffers

A thread-local buffer (TLAB) of a transaction thread lies in the eden of its transaction. The
file adds the buffers to the thread events. Steps that other threads can come between are
separate events: `Parker::park` publishes the eden before it retires the buffer, a new buffer is
filled after its eden was chosen, and `collectResettableTransEden` resets an eden before it
clears it. With `UseTLAB` off no thread takes a buffer: runs without `refill`.
-/
namespace AllocationBuffers
open EdenTable ThreadEvents TransitionRuns Function
open AllocationPolicy (Place)

/-- What a thread is in the middle of. -/
inductive Activity where
  | running
  /-- `allocate_new_tlab` has chosen the eden of the transaction, if the thread has one. -/
  | filling (eden : Option Nat)
  /-- `Parker::park` has ended the transaction and not yet retired the buffer. -/
  | parking
  | examining (id : Nat)
  | clearing (id : Nat)
  deriving DecidableEq, Repr

/-- An eden that was cleared, and the unretired buffers of the threads at that moment. -/
structure Clearing where
  eden : Nat
  tlab : Nat → Option Place

structure Machine where
  vm : VM
  tlab : Nat → Option Place
  activity : Nat → Activity
  clearings : List Clearing

namespace Machine

def initial (maxTransEden : Nat) : Machine where
  vm := VM.initial maxTransEden
  tlab := fun _ => none
  activity := fun _ => .running
  clearings := []

/-- `ThreadLocalAllocBuffer::clear_before_allocation`, and `make_parsable` with retirement. -/
def retire (m : Machine) (ostid : Nat) : Machine :=
  { m with tlab := update m.tlab ostid none }

/-- `CollectedHeap::ensure_parsability(true)`, which `gc_prologue` calls at a safepoint. -/
def ensureParsability (m : Machine) : Machine := { m with tlab := fun _ => none }

def turn (m : Machine) (ostid : Nat) (activity : Activity) : Machine :=
  { m with activity := update m.activity ostid activity }

@[simp] theorem retire_tlab_self (m : Machine) (ostid : Nat) :
    (m.retire ostid).tlab ostid = none := update_self ..

theorem retire_tlab_of_ne (m : Machine) {ostid other : Nat} (apart : other ≠ ostid) :
    (m.retire ostid).tlab other = m.tlab other := update_of_ne apart ..

@[simp] theorem turn_activity_self (m : Machine) (ostid : Nat) (activity : Activity) :
    (m.turn ostid activity).activity ostid = activity := update_self ..

theorem turn_activity_of_ne (m : Machine) (activity : Activity) {ostid other : Nat}
    (apart : other ≠ ostid) : (m.turn ostid activity).activity other = m.activity other :=
  update_of_ne apart ..

def logClear (m : Machine) (id : Nat) : Machine :=
  { m with clearings := ⟨id, m.tlab⟩ :: m.clearings }

def onVM (flags : Flags) (m : Machine) (e : ThreadEvents.Event) : Option Machine :=
  (ThreadEvents.step flags m.vm e).map fun vm => { m with vm := vm }

def whenRunning (m : Machine) (ostid : Nat) (next : Option Machine) : Option Machine :=
  if m.activity ostid = .running then next else none

end Machine

inductive Event where
  | threadStart (ostid parent : Nat) (acceptName : Bool)
  | commonMemAllocateNoinit (ostid : Nat)
  | getTransEdenToAllocate (ostid : Nat)
  | clearBeforeAllocation (ostid : Nat)
  | refill (ostid : Nat)
  | fill (ostid : Nat) (inEden inDefNew : Bool)
  | park (ostid : Nat)
  | parkRetire (ostid : Nat)
  | awaitEntry (ostid : Nat)
  | awaitExit (ostid : Nat)
  | threadExit (ostid : Nat)
  | collectResettableTransEden (ostid : Nat)
  | reclaimRound (ostid : Nat)
  | collectTransEden (gcLockerActive collectionAttemptIsSafe promotionFailed trainingEnds : Bool)
      (id : Int)
  | resetTransEdens
  deriving DecidableEq, Repr

/-- The first half of `allocate_new_tlab`: the eden that a buffer would be taken from. -/
def refill (flags : Flags) (m : Machine) (ostid : Nat) (thread : JavaThread) : Option Machine :=
  (m.vm.gen.getTransEdenToAllocateNolock m.vm.isFoundTCPAcceptThread m.vm.trainingDone
    (.java thread)).bind fun out =>
      (m.onVM flags (.getTransEdenToAllocate ostid)).map fun m =>
        m.turn ostid (.filling out.eden)

/-- The place of the new buffer: the chosen eden if the block fits there, else DefNew. -/
def newTlab (eden : Option Nat) (inEden inDefNew : Bool) : Option Place :=
  match eden, inEden with
  | some id, true => some (.transEden id)
  | _, _ => if inDefNew then some .defNew else none

/-- One access of the loop of `collectResettableTransEden`. -/
def reclaimRound (m : Machine) (ostid : Nat) : Option Machine :=
  match m.activity ostid with
  | .examining id =>
    match m.vm.gen.transEdens[id]? with
    | none => some (m.turn ostid .running)
    | some eden =>
      if eden.state = .collectable ∧ eden.trained = true then
        let gen := { m.vm.gen with collectableCount := m.vm.gen.collectableCount - 1 }
        some ({ m with vm := { m.vm with gen := gen.resetTransEden id } }.turn ostid (.clearing id))
      else some (m.turn ostid (.examining (id + 1)))
  | .clearing id =>
    let cleared := { m.vm with gen := m.vm.gen.clearTransEden id }
    some ({ m.logClear id with vm := cleared }.turn ostid (.examining (id + 1)))
  | _ => none

/-- Whether `collectTransEden` gets as far as clearing the eden. -/
def empties (flags : Flags) (vm : VM) (collectionAttemptIsSafe promotionFailed : Bool)
    (id : Int) : Bool :=
  (vm.gen.getTransEden id).any fun eden =>
    eden.state = .collectable &&
      (eden.trained && flags.avoidCollectTrained || collectionAttemptIsSafe && !promotionFailed)

/-- An active GC locker turns the call away before the prologue, which retires every buffer. -/
def collectTransEden (flags : Flags) (m : Machine)
    (gcLockerActive collectionAttemptIsSafe promotionFailed trainingEnds : Bool) (id : Int) :
    Option Machine :=
  if gcLockerActive then some m
  else
    let m := m.ensureParsability
    let m := if empties flags m.vm collectionAttemptIsSafe promotionFailed id
      then m.logClear id.toNat else m
    m.onVM flags (.collectTransEden collectionAttemptIsSafe promotionFailed trainingEnds id)

def step (flags : Flags) (m : Machine) : Event → Option Machine
  | .threadStart ostid parent acceptName =>
    (m.retire ostid).onVM flags (.threadStart ostid parent acceptName)
  | .commonMemAllocateNoinit ostid =>
    m.whenRunning ostid (m.onVM flags (.commonMemAllocateNoinit ostid))
  | .getTransEdenToAllocate ostid =>
    m.whenRunning ostid (m.onVM flags (.getTransEdenToAllocate ostid))
  | .clearBeforeAllocation ostid =>
    m.whenRunning ostid ((m.vm.threads ostid).map fun _ => m.retire ostid)
  | .refill ostid =>
    m.whenRunning ostid (if m.tlab ostid = none
      then (m.vm.threads ostid).bind (refill flags m ostid) else none)
  | .fill ostid inEden inDefNew =>
    match m.activity ostid with
    | .filling eden =>
      let m := m.turn ostid .running
      some { m with tlab := update m.tlab ostid (newTlab eden inEden inDefNew) }
    | _ => none
  | .park ostid =>
    m.whenRunning ostid ((m.vm.threads ostid).bind fun thread =>
      (if flags.useParkUnpark = true ∧ thread.monitorFilter = true
        then m.turn ostid .parking else m).onVM flags (.park ostid))
  | .parkRetire ostid =>
    if m.activity ostid = .parking then some ((m.retire ostid).turn ostid .running) else none
  | .awaitEntry ostid =>
    m.whenRunning ostid ((m.vm.threads ostid).bind fun thread =>
      (if flags.useParkUnpark = false ∧ thread.monitorFilter = true
        then m.retire ostid else m).onVM flags (.awaitEntry ostid))
  | .awaitExit ostid => m.whenRunning ostid (m.onVM flags (.awaitExit ostid))
  | .threadExit ostid => m.whenRunning ostid ((m.retire ostid).onVM flags (.threadExit ostid))
  | .collectResettableTransEden ostid =>
    m.whenRunning ostid ((m.vm.threads ostid).map fun _ =>
      if m.vm.trainingDone = false ∨ flags.pretenure = false ∨ flags.avoidCollectTrained = false
      then m else m.turn ostid (.examining 0))
  | .reclaimRound ostid => reclaimRound m ostid
  | .collectTransEden gcLockerActive safe failed trainingEnds id =>
    collectTransEden flags m gcLockerActive safe failed trainingEnds id
  | .resetTransEdens => m.ensureParsability.onVM flags .resetTransEdens

end AllocationBuffers
