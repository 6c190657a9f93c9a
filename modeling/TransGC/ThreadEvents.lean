import Mathlib.Algebra.Order.Ring.Int
import Mathlib.Logic.Function.Basic
import TransGC.EdenTable

/-!
# Transaction threads

A worker thread started by the accept thread is monitored: it opens a transaction when it starts
or wakes up and closes it when it parks, enters a traced `await` or exits. Threads that it starts
inherit its transaction and its cached eden but are not monitored. `Effect` says once what a
thread event can do. Thread-local allocation buffers are left out.
-/
namespace ThreadEvents
open EdenTable Function Option List

structure Flags where
  threadRunAsTransaction : Bool
  countChildrenForTrans : Bool
  useParkUnpark : Bool
  avoidCollectTrained : Bool
  pretenure : Bool
  deriving DecidableEq, Repr

/-- `threads` holds the live Java threads under their operating system IDs. -/
structure VM where
  threads : Nat → Option JavaThread
  transParentThreadID : Int
  newTransID : Int
  trainingDone : Bool
  gen : TransNewGeneration

namespace VM

def initial (maxTransEden : Nat) : VM where
  threads := fun _ => none
  transParentThreadID := -1
  newTransID := -1
  trainingDone := false
  gen := TransNewGeneration.initial maxTransEden

def isFoundTCPAcceptThread (vm : VM) : Bool := vm.transParentThreadID != -1

/-- The value that `Universe::getNewTransID` stores and returns: a 32-bit
increment. -/
def getNewTransID (vm : VM) : Int := (vm.newTransID + 1).bmod (2 ^ 32)

def setThread (vm : VM) (ostid : Nat) (thread : JavaThread) : VM :=
  { vm with threads := update vm.threads ostid (some thread) }

def removeThread (vm : VM) (ostid : Nat) : VM :=
  { vm with threads := update vm.threads ostid none }

end VM

def JavaThread.new : JavaThread where
  transID := -1
  transEdenID := -1
  pooled := false
  monitorFilter := false
  threadCountsInTransaction := 1

/-- For a thread `ostid` created by `parent`; one that is no Java thread has no entry. -/
def transCheckBeforeRun (flags : Flags) (vm : VM) (ostid parent : Nat) (acceptName : Bool) : VM :=
  let thread := JavaThread.new
  if vm.isFoundTCPAcceptThread = false then
    if acceptName then { vm.setThread ostid thread with transParentThreadID := ostid }
    else vm.setThread ostid thread
  else if (parent : Int) = vm.transParentThreadID then
    let thread :=
      { thread with threadCountsInTransaction := 1, monitorFilter := true, pooled := false }
    if flags.threadRunAsTransaction then
      { vm.setThread ostid { thread with transID := vm.getNewTransID } with
        newTransID := vm.getNewTransID }
    else vm.setThread ostid thread
  else
    match vm.threads parent with
    | some owner =>
      if flags.countChildrenForTrans = true ∧ owner.hasValidTransID = true then
        (vm.setThread parent
          { owner with threadCountsInTransaction := owner.threadCountsInTransaction + 1 }).setThread
          ostid { thread with transID := owner.transID, transEdenID := owner.transEdenID }
      else vm.setThread ostid thread
    | none => vm.setThread ostid thread

/-- The start of a transaction by a pooled thread: a new ID and no cached eden. -/
def startTransaction (vm : VM) (ostid : Nat) (thread : JavaThread) : VM :=
  { vm.setThread ostid
      { thread with
        transID := vm.getNewTransID, pooled := false, threadCountsInTransaction := 1,
        transEdenID := -1 } with
    newTransID := vm.getNewTransID }

/-- The start of `CollectedHeap::common_mem_allocate_noinit`. -/
def commonMemAllocateNoinit (flags : Flags) (vm : VM) (ostid : Nat) (thread : JavaThread) : VM :=
  if flags.useParkUnpark = true ∧ thread.monitorFilter = true ∧ thread.pooled = true ∧
      thread.hasValidTransID = false then
    startTransaction vm ostid thread
  else vm

/-- The table after the thread has handed in the eden of its transaction. -/
def handIn (vm : VM) (thread : JavaThread) : TransNewGeneration :=
  if thread.hasValidTransID then
    vm.gen.setTransEdenCollectable thread.transEdenID thread.transID
      thread.threadCountsInTransaction
  else vm.gen

/-- The end of a transaction by a monitored thread that goes back to the pool. -/
def endTransaction (vm : VM) (ostid : Nat) (thread : JavaThread) : VM :=
  { vm.setThread ostid { thread with transID := -1, pooled := true } with gen := handIn vm thread }

/-- `Parker::park` once no permit is available. -/
def park (flags : Flags) (vm : VM) (ostid : Nat) (thread : JavaThread) : VM :=
  if flags.useParkUnpark = true ∧ thread.monitorFilter = true then endTransaction vm ostid thread
  else vm

/-- `SharedRuntime::dtrace_method_entry` for `await` of a traced class. -/
def dtraceMethodEntry (flags : Flags) (vm : VM) (ostid : Nat) (thread : JavaThread) : VM :=
  if flags.useParkUnpark = false ∧ thread.monitorFilter = true then endTransaction vm ostid thread
  else vm

/-- `SharedRuntime::dtrace_method_exit` for `await` of a traced class. -/
def dtraceMethodExit (flags : Flags) (vm : VM) (ostid : Nat) (thread : JavaThread) : VM :=
  if flags.useParkUnpark = false ∧ thread.monitorFilter = true then startTransaction vm ostid thread
  else vm

/-- `JavaThread::exit`: only a monitored thread with a transaction hands in its
eden. -/
def exit (vm : VM) (ostid : Nat) (thread : JavaThread) : VM :=
  if thread.monitorFilter = true ∧ thread.hasValidTransID = true then
    (endTransaction vm ostid thread).removeThread ostid
  else vm.removeThread ostid

def getTransEdenToAllocate (vm : VM) (ostid : Nat) (thread : JavaThread) : Option VM :=
  (vm.gen.getTransEdenToAllocateNolock vm.isFoundTCPAcceptThread vm.trainingDone
    (.java thread)).map fun out =>
      match out.thread with
      | .java thread => { vm.setThread ostid thread with gen := out.gen }
      | .vm => vm

/-- `trainingEnds`: the examination of a successful collection declares the training done. -/
def collectTransEden (flags : Flags) (vm : VM)
    (collectionAttemptIsSafe promotionFailed trainingEnds : Bool) (id : Int) : Option VM :=
  (vm.gen.collectTransEden flags.avoidCollectTrained collectionAttemptIsSafe promotionFailed id).map
    fun gen => { vm with gen := gen, trainingDone := vm.trainingDone || trainingEnds }

inductive Event where
  | threadStart (ostid parent : Nat) (acceptName : Bool)
  | commonMemAllocateNoinit (ostid : Nat)
  | getTransEdenToAllocate (ostid : Nat)
  | park (ostid : Nat)
  | awaitEntry (ostid : Nat)
  | awaitExit (ostid : Nat)
  | threadExit (ostid : Nat)
  | collectTransEden (collectionAttemptIsSafe promotionFailed trainingEnds : Bool) (id : Int)
  | collectResettableTransEden
  | resetTransEdens
  deriving DecidableEq, Repr

/-- The thread that an event belongs to. -/
def Event.actor : Event → Option Nat
  | .threadStart ostid _ _ | .commonMemAllocateNoinit ostid | .getTransEdenToAllocate ostid
  | .park ostid | .awaitEntry ostid | .awaitExit ostid | .threadExit ostid => some ostid
  | .collectTransEden .. | .collectResettableTransEden | .resetTransEdens => none

def step (flags : Flags) (vm : VM) : Event → Option VM
  | .threadStart ostid parent acceptName =>
    if (vm.threads ostid).isSome then none
    else some (transCheckBeforeRun flags vm ostid parent acceptName)
  | .commonMemAllocateNoinit ostid =>
    (vm.threads ostid).map (commonMemAllocateNoinit flags vm ostid)
  | .getTransEdenToAllocate ostid => (vm.threads ostid).bind (getTransEdenToAllocate vm ostid)
  | .park ostid => (vm.threads ostid).map (park flags vm ostid)
  | .awaitEntry ostid => (vm.threads ostid).map (dtraceMethodEntry flags vm ostid)
  | .awaitExit ostid => (vm.threads ostid).map (dtraceMethodExit flags vm ostid)
  | .threadExit ostid => (vm.threads ostid).map (exit vm ostid)
  | .collectTransEden safe failed trainingEnds id =>
    collectTransEden flags vm safe failed trainingEnds id
  | .collectResettableTransEden =>
    some { vm with
      gen := (vm.gen.collectResettableTransEden vm.trainingDone flags.pretenure
        flags.avoidCollectTrained).2 }
  | .resetTransEdens => some { vm with gen := vm.gen.resetTransEdens }

/-- The thread whose transaction an event ends, if it ends one. -/
def endsBy (flags : Flags) (vm : VM) : Event → Option JavaThread
  | .park ostid =>
    (vm.threads ostid).filter fun thread =>
      flags.useParkUnpark && thread.monitorFilter && thread.hasValidTransID
  | .awaitEntry ostid =>
    (vm.threads ostid).filter fun thread =>
      !flags.useParkUnpark && thread.monitorFilter && thread.hasValidTransID
  | .threadExit ostid =>
    (vm.threads ostid).filter fun thread => thread.monitorFilter && thread.hasValidTransID
  | _ => none

/-- What an event does to the machine. -/
inductive Effect (flags : Flags) (vm : VM) : Event → VM → Prop
  | idle {e : Event} (quiet : endsBy flags vm e = none) : Effect flags vm e vm
  | born {ostid parent : Nat} {acceptName : Bool} {accept : Int} (fresh : vm.threads ostid = none) :
      Effect flags vm (.threadStart ostid parent acceptName)
        { vm.setThread ostid JavaThread.new with transParentThreadID := accept }
  | worker {ostid parent : Nat} {acceptName : Bool} (fresh : vm.threads ostid = none) :
      Effect flags vm (.threadStart ostid parent acceptName)
        (vm.setThread ostid { JavaThread.new with monitorFilter := true })
  | workerStarted {ostid parent : Nat} {acceptName : Bool} (fresh : vm.threads ostid = none) :
      Effect flags vm (.threadStart ostid parent acceptName)
        { vm.setThread ostid
            { JavaThread.new with monitorFilter := true, transID := vm.getNewTransID } with
          newTransID := vm.getNewTransID }
  | child {ostid parent : Nat} {acceptName : Bool} {owner : JavaThread}
      (fresh : vm.threads ostid = none) (entry : vm.threads parent = some owner)
      (valid : owner.transID ≠ -1) (counted : flags.countChildrenForTrans = true)
      (foreign : (parent : Int) ≠ vm.transParentThreadID) (found : vm.isFoundTCPAcceptThread = true) :
      Effect flags vm (.threadStart ostid parent acceptName)
        ((vm.setThread parent
          { owner with threadCountsInTransaction := owner.threadCountsInTransaction + 1 }).setThread
          ostid { JavaThread.new with transID := owner.transID, transEdenID := owner.transEdenID })
  | woken {ostid : Nat} {thread : JavaThread} (entry : vm.threads ostid = some thread)
      (monitored : thread.monitorFilter = true) (outside : thread.transID = -1) :
      Effect flags vm (.commonMemAllocateNoinit ostid) (startTransaction vm ostid thread)
  | returned {ostid : Nat} {thread : JavaThread} (entry : vm.threads ostid = some thread)
      (monitored : thread.monitorFilter = true) :
      Effect flags vm (.awaitExit ostid) (startTransaction vm ostid thread)
  | allocated {ostid : Nat} {thread after : JavaThread} {eden : Option Nat}
      {gen : TransNewGeneration} (entry : vm.threads ostid = some thread)
      (path : TransNewGeneration.AllocationPath vm.gen vm.isFoundTCPAcceptThread vm.trainingDone
        (.java thread) ⟨eden, .java after, gen⟩) :
      Effect flags vm (.getTransEdenToAllocate ostid) { vm.setThread ostid after with gen := gen }
  | parked {ostid : Nat} {thread : JavaThread} (entry : vm.threads ostid = some thread)
      (monitored : thread.monitorFilter = true)
      (ends : endsBy flags vm (.park ostid) = if thread.transID ≠ -1 then some thread else none) :
      Effect flags vm (.park ostid) (endTransaction vm ostid thread)
  | awaits {ostid : Nat} {thread : JavaThread} (entry : vm.threads ostid = some thread)
      (monitored : thread.monitorFilter = true)
      (ends : endsBy flags vm (.awaitEntry ostid) =
        if thread.transID ≠ -1 then some thread else none) :
      Effect flags vm (.awaitEntry ostid) (endTransaction vm ostid thread)
  | exitedWithin {ostid : Nat} {thread : JavaThread} (entry : vm.threads ostid = some thread)
      (valid : thread.transID ≠ -1) (ends : endsBy flags vm (.threadExit ostid) = some thread) :
      Effect flags vm (.threadExit ostid) ((endTransaction vm ostid thread).removeThread ostid)
  | exited {ostid : Nat} {thread : JavaThread} (entry : vm.threads ostid = some thread)
      (outside : ¬(thread.monitorFilter = true ∧ thread.transID ≠ -1)) :
      Effect flags vm (.threadExit ostid) (vm.removeThread ostid)
  | settled {e : Event} {gen : TransNewGeneration} {trainingDone : Bool}
      (quiet : endsBy flags vm e = none)
      (settles : TransNewGeneration.TableSettled vm.gen gen) :
      Effect flags vm e { vm with gen := gen, trainingDone := trainingDone }

variable {e : Event} {flags : Flags} {next thread : JavaThread} {id ostid other : Nat}
  {eden : TransEden} {gen : TransNewGeneration} {after vm : VM}

@[simp] theorem hasValidTransID_iff : thread.hasValidTransID = true ↔ thread.transID ≠ -1 := by
  simp [JavaThread.hasValidTransID]

@[simp] theorem hasValidTransID_eq_false :
    thread.hasValidTransID = false ↔ thread.transID = -1 := by
  simp [JavaThread.hasValidTransID]

theorem start_effect (flags : Flags) (vm : VM) (ostid parent : Nat) (acceptName : Bool)
    (fresh : vm.threads ostid = none) :
    Effect flags vm (.threadStart ostid parent acceptName)
      (transCheckBeforeRun flags vm ostid parent acceptName) := by
  unfold transCheckBeforeRun
  by_cases found : vm.isFoundTCPAcceptThread = false
  · rw [if_pos found]
    split
    · exact .born fresh
    · exact .born fresh
  · rw [if_neg found]
    by_cases accept : (parent : Int) = vm.transParentThreadID
    · rw [if_pos accept]
      split
      · exact .workerStarted fresh
      · exact .worker fresh
    · rw [if_neg accept]
      cases entry : vm.threads parent with
      | none => exact .born fresh
      | some owner =>
        dsimp only
        split
        · rename_i inherits
          exact .child fresh entry (hasValidTransID_iff.mp inherits.2) inherits.1 accept
            (by simpa using found)
        · exact .born fresh

theorem allocate_effect (flags : Flags) (entry : vm.threads ostid = some thread)
    (allocates : getTransEdenToAllocate vm ostid thread = some after) :
    Effect flags vm (.getTransEdenToAllocate ostid) after := by
  obtain ⟨⟨eden, current, gen⟩, returns, rfl⟩ := map_eq_some_iff.mp allocates
  have path := TransNewGeneration.getTransEdenToAllocateNolock_path returns
  cases current with
  | java next => exact .allocated entry path
  | vm => exact .idle rfl

theorem step_effect (stepped : step flags vm e = some after) : Effect flags vm e after := by
  cases e with
  | threadStart ostid parent acceptName =>
    simp only [step] at stepped
    split at stepped
    · cases stepped
    · rename_i fresh
      cases some.inj stepped
      exact start_effect flags vm ostid parent acceptName (by simpa using fresh)
  | commonMemAllocateNoinit ostid =>
    obtain ⟨thread, entry, rfl⟩ := map_eq_some_iff.mp stepped
    unfold commonMemAllocateNoinit
    split
    · rename_i wakes
      exact .woken entry wakes.2.1 (by simpa using wakes.2.2.2)
    · exact .idle rfl
  | getTransEdenToAllocate ostid =>
    obtain ⟨thread, entry, allocates⟩ := bind_eq_some_iff.mp stepped
    exact allocate_effect flags entry allocates
  | park ostid =>
    obtain ⟨thread, entry, rfl⟩ := map_eq_some_iff.mp stepped
    unfold park
    split
    · rename_i ends
      refine .parked entry ends.2 ?_
      by_cases valid : thread.transID = -1 <;> simp [endsBy, entry, ends, valid]
    · rename_i stays
      refine .idle ?_
      simp only [endsBy, entry, filter_eq_none_iff]
      grind
  | awaitEntry ostid =>
    obtain ⟨thread, entry, rfl⟩ := map_eq_some_iff.mp stepped
    unfold dtraceMethodEntry
    split
    · rename_i ends
      refine .awaits entry ends.2 ?_
      by_cases valid : thread.transID = -1 <;> simp [endsBy, entry, ends, valid]
    · rename_i stays
      refine .idle ?_
      simp only [endsBy, entry, filter_eq_none_iff]
      grind
  | awaitExit ostid =>
    obtain ⟨thread, entry, rfl⟩ := map_eq_some_iff.mp stepped
    unfold dtraceMethodExit
    split
    · rename_i starts
      exact .returned entry starts.2
    · exact .idle rfl
  | threadExit ostid =>
    obtain ⟨thread, entry, rfl⟩ := map_eq_some_iff.mp stepped
    unfold exit
    split
    · rename_i within
      exact .exitedWithin entry (hasValidTransID_iff.mp within.2) (by simp [endsBy, entry, within])
    · rename_i outside
      exact .exited entry (by simpa using outside)
  | collectTransEden safe failed trainingEnds id =>
    obtain ⟨gen, collected, rfl⟩ := map_eq_some_iff.mp stepped
    exact .settled rfl (TransNewGeneration.collectTransEden_settled collected)
  | collectResettableTransEden =>
    cases some.inj stepped
    exact .settled rfl (vm.gen.collectResettable_settled _ _ _)
  | resetTransEdens =>
    cases some.inj stepped
    exact .settled rfl vm.gen.resetTransEdens_settled

/-! ## What an event does to one thread and to one eden -/

/-- Where a thread that is alive after an event comes from. -/
inductive ThreadChange (flags : Flags) (vm : VM) (e : Event) (after : VM) (ostid : Nat)
    (thread : JavaThread) : Prop
  | same {old : JavaThread} (entry : vm.threads ostid = some old)
      (transID : thread.transID = old.transID) (cache : thread.transEdenID = old.transEdenID)
      (monitor : thread.monitorFilter = old.monitorFilter)
  | outside (transID : thread.transID = -1)
  | drawn (actor : e.actor = some ostid) (counter : after.newTransID = vm.getNewTransID)
      (transID : thread.transID = vm.getNewTransID) (cache : thread.transEdenID = -1)
      (monitor : thread.monitorFilter = true)
  | inherited {parent : Nat} {acceptName : Bool} {owner : JavaThread}
      (starts : e = .threadStart ostid parent acceptName) (entry : vm.threads parent = some owner)
      (counted : flags.countChildrenForTrans = true) (valid : owner.transID ≠ -1)
      (transID : thread.transID = owner.transID) (cache : thread.transEdenID = owner.transEdenID)
      (monitor : thread.monitorFilter = false)
  | located {old : JavaThread} {id : Nat} {eden : TransEden} (entry : vm.threads ostid = some old)
      (valid : old.transID ≠ -1) (uncached : old.transEdenID = -1)
      (transID : thread.transID = old.transID) (cache : thread.transEdenID = id)
      (monitor : thread.monitorFilter = old.monitorFilter)
      (found : after.gen.transEdens[id]? = some eden) (owns : eden.transID = old.transID)

theorem update_eq_some {threads : Nat → Option JavaThread}
    (entry : update threads ostid (some next) other = some thread) :
    (other = ostid ∧ thread = next) ∨ (other ≠ ostid ∧ threads other = some thread) := by
  by_cases here : other = ostid
  · subst here
    rw [update_self] at entry
    exact .inl ⟨rfl, (some.inj entry).symm⟩
  · rw [update_of_ne here] at entry
    exact .inr ⟨here, entry⟩

theorem remove_eq_some {threads : Nat → Option JavaThread}
    (entry : update threads ostid none other = some thread) :
    other ≠ ostid ∧ threads other = some thread := by
  by_cases here : other = ostid
  · subst here
    rw [update_self] at entry
    cases entry
  · rw [update_of_ne here] at entry
    exact ⟨here, entry⟩

theorem path_thread {eden : Option Nat} (entry : vm.threads ostid = some thread)
    (path : TransNewGeneration.AllocationPath vm.gen vm.isFoundTCPAcceptThread vm.trainingDone
      (.java thread) ⟨eden, .java next, gen⟩) :
    ThreadChange flags vm e { vm.setThread ostid next with gen := gen } ostid next := by
  cases path with
  | outside reason => exact .same entry rfl rfl rfl
  | cached accept valid cache found owns held => exact .same entry rfl rfl rfl
  | ditched accept valid cache found lost => exact .outside rfl
  | searched accept valid cache search found owns =>
    exact .located entry valid cache rfl rfl rfl found owns
  | assigned accept valid cache search room found free =>
    exact .located entry valid cache rfl rfl rfl
      (List.getElem?_set_self (List.getElem?_eq_some_iff.mp found).1) rfl
  | full accept valid cache search noRoom => exact .outside rfl

theorem effect_thread (effect : Effect flags vm e after)
    (entry : after.threads other = some thread) : ThreadChange flags vm e after other thread := by
  cases effect with
  | idle quiet | settled quiet settles => exact .same entry rfl rfl rfl
  | born fresh | worker fresh | parked ended monitored ends | awaits ended monitored ends =>
    rcases update_eq_some entry with ⟨-, rfl⟩ | ⟨-, kept⟩
    · exact .outside rfl
    · exact .same kept rfl rfl rfl
  | workerStarted fresh =>
    rcases update_eq_some entry with ⟨rfl, rfl⟩ | ⟨-, kept⟩
    · exact .drawn rfl rfl rfl rfl rfl
    · exact .same kept rfl rfl rfl
  | child fresh parentEntry valid counted foreign found =>
    rcases update_eq_some entry with ⟨rfl, rfl⟩ | ⟨-, kept⟩
    · exact .inherited rfl parentEntry counted valid rfl rfl rfl
    · rcases update_eq_some kept with ⟨rfl, rfl⟩ | ⟨-, kept⟩
      · exact .same parentEntry rfl rfl rfl
      · exact .same kept rfl rfl rfl
  | woken started monitored outside | returned started monitored =>
    rcases update_eq_some entry with ⟨rfl, rfl⟩ | ⟨-, kept⟩
    · exact .drawn rfl rfl rfl rfl monitored
    · exact .same kept rfl rfl rfl
  | allocated caller path =>
    rcases update_eq_some entry with ⟨rfl, rfl⟩ | ⟨-, kept⟩
    · exact path_thread caller path
    · exact .same kept rfl rfl rfl
  | exitedWithin ended valid ends =>
    obtain ⟨apart, kept⟩ := remove_eq_some entry
    rcases update_eq_some kept with ⟨rfl, -⟩ | ⟨-, kept⟩
    · exact absurd rfl apart
    · exact .same kept rfl rfl rfl
  | exited ended outside => exact .same (remove_eq_some entry).2 rfl rfl rfl

@[simp] theorem handIn_maxTransEden (vm : VM) (thread : JavaThread) :
    (handIn vm thread).maxTransEden = vm.gen.maxTransEden := by
  unfold handIn
  split
  · rcases vm.gen.setTransEdenCollectable_cases thread.transEdenID thread.transID
      thread.threadCountsInTransaction with ⟨-, same⟩ | ⟨id, eden, -, -, -, same⟩
    · rw [same]
    · rw [same]
      exact vm.gen.setTransEden_maxTransEden id _
  · rfl

theorem path_maxTransEden {next : TransNewGeneration} {found trainingDone : Bool}
    {current caller : Thread} {eden : Option Nat}
    (path : TransNewGeneration.AllocationPath gen found trainingDone current ⟨eden, caller, next⟩) :
    next.maxTransEden = gen.maxTransEden := by
  cases path with
  | @assigned _ id => exact gen.setTransEden_maxTransEden id _
  | _ => rfl

theorem effect_maxTransEden (effect : Effect flags vm e after) :
    after.gen.maxTransEden = vm.gen.maxTransEden := by
  cases effect with
  | allocated caller path => exact path_maxTransEden path
  | parked | awaits | exitedWithin => exact handIn_maxTransEden vm _
  | settled quiet settles => exact settles.size
  | _ => rfl

/-- It leaves owner and state, it settles the eden in a collection or a reset, the thread that ends
its transaction hands it in, or an allocating thread gets it assigned. -/
inductive EdenChange (flags : Flags) (vm : VM) (e : Event) (after : VM) (id : Nat)
    (old eden : TransEden) : Prop
  | kept (owner : eden.transID = old.transID) (state : eden.state = old.state)
      (missed : ∀ thread, endsBy flags vm e = some thread →
        ¬(thread.transEdenID = id ∧ old.transID = thread.transID))
  | settled (quiet : endsBy flags vm e = none) (settles : TransNewGeneration.Settled old eden)
  | handedIn {thread : JavaThread} (ends : endsBy flags vm e = some thread)
      (cache : thread.transEdenID = id) (owns : old.transID = thread.transID)
      (owner : eden.transID = old.transID) (state : eden.state = .collectable)
  | assigned {ostid : Nat} {thread : JavaThread} (entry : vm.threads ostid = some thread)
      (cached : after.threads ostid = some { thread with transEdenID := id })
      (quiet : endsBy flags vm e = none) (valid : thread.transID ≠ -1)
      (uncached : thread.transEdenID = -1) (nobody : vm.gen.searchTransID thread.transID = none)
      (free : old.state = .available) (owner : eden.transID = thread.transID)
      (state : eden.state = .assigned)

theorem handIn_eden (valid : thread.transID ≠ -1)
    (entry : (handIn vm thread).transEdens[id]? = some eden) :
    ∃ old, vm.gen.transEdens[id]? = some old ∧
      ((¬(thread.transEdenID = id ∧ old.transID = thread.transID) ∧ eden = old) ∨
        (thread.transEdenID = id ∧ old.transID = thread.transID ∧ eden.transID = old.transID ∧
          eden.state = .collectable)) := by
  rw [handIn, if_pos (hasValidTransID_iff.mpr valid)] at entry
  rcases vm.gen.setTransEdenCollectable_cases thread.transEdenID thread.transID
    thread.threadCountsInTransaction with ⟨foreign, same⟩ | ⟨target, old, cache, found, owns, same⟩
  · rw [same] at entry
    refine ⟨eden, entry, .inl ⟨?_, rfl⟩⟩
    rintro ⟨cache, owns⟩
    refine foreign eden ?_ owns
    rw [cache, TransNewGeneration.getTransEden_natCast]
    exact entry
  · rw [same] at entry
    by_cases here : target = id
    · subst here
      have written := (List.getElem?_set_self (List.getElem?_eq_some_iff.mp found).1).symm.trans entry
      cases some.inj written
      exact ⟨old, found, .inr ⟨cache, owns, rfl, rfl⟩⟩
    · have kept : vm.gen.transEdens[id]? = some eden := (getElem?_set_ne here).symm.trans entry
      exact ⟨eden, kept, .inl ⟨fun hit => here (by omega), rfl⟩⟩

/-- The common part of the three events that can end a transaction. -/
theorem end_eden (ends : endsBy flags vm e = if thread.transID ≠ -1 then some thread else none)
    (entry : (handIn vm thread).transEdens[id]? = some eden) :
    ∃ old, vm.gen.transEdens[id]? = some old ∧ EdenChange flags vm e after id old eden := by
  by_cases valid : thread.transID ≠ -1
  · rw [if_pos valid] at ends
    obtain ⟨old, found, ⟨missed, rfl⟩ | ⟨cache, owns, owner, state⟩⟩ := handIn_eden valid entry
    · refine ⟨eden, found, .kept rfl rfl ?_⟩
      intro other same
      rw [ends] at same
      cases some.inj same
      exact missed
    · exact ⟨old, found, .handedIn ends cache owns owner state⟩
  · rw [if_neg valid] at ends
    rw [handIn, if_neg (by simpa using valid)] at entry
    exact ⟨eden, entry, .kept rfl rfl (by simp [ends])⟩

theorem path_eden {returned : Option Nat} (quiet : endsBy flags vm e = none)
    (caller : vm.threads ostid = some thread) (updated : after.threads ostid = some next)
    (path : TransNewGeneration.AllocationPath vm.gen vm.isFoundTCPAcceptThread vm.trainingDone
      (.java thread) ⟨returned, .java next, gen⟩)
    (entry : gen.transEdens[id]? = some eden) :
    ∃ old, vm.gen.transEdens[id]? = some old ∧ EdenChange flags vm e after id old eden := by
  have kept : vm.gen.transEdens[id]? = some eden →
      ∃ old, vm.gen.transEdens[id]? = some old ∧ EdenChange flags vm e after id old eden :=
    fun found => ⟨eden, found, .kept rfl rfl (by simp [quiet])⟩
  cases path with
  | @assigned _ target old accept valid cache search room found free =>
    by_cases here : target = id
    · subst here
      have written := (List.getElem?_set_self (List.getElem?_eq_some_iff.mp found).1).symm.trans entry
      cases some.inj written
      exact ⟨old, found, .assigned caller updated quiet valid cache search free rfl rfl⟩
    · exact kept ((getElem?_set_ne here).symm.trans entry)
  | _ => exact kept entry

theorem effect_eden (effect : Effect flags vm e after)
    (entry : after.gen.transEdens[id]? = some eden) :
    ∃ old, vm.gen.transEdens[id]? = some old ∧ EdenChange flags vm e after id old eden := by
  have kept : endsBy flags vm e = none → vm.gen.transEdens[id]? = some eden →
      ∃ old, vm.gen.transEdens[id]? = some old ∧ EdenChange flags vm e after id old eden :=
    fun quiet found => ⟨eden, found, .kept rfl rfl (by simp [quiet])⟩
  cases effect with
  | idle quiet => exact kept quiet entry
  | born | worker | workerStarted | child | woken | returned => exact kept rfl entry
  | allocated caller path => exact path_eden rfl caller (update_self _ _ _) path entry
  | parked caller monitored ends | awaits caller monitored ends => exact end_eden ends entry
  | exitedWithin caller valid ends => exact end_eden (ends.trans (if_pos valid).symm) entry
  | @exited ostid thread caller outside =>
    refine kept ?_ entry
    simp only [endsBy, caller, filter_eq_none_iff]
    rintro _ ⟨⟩ holds
    exact outside (by simpa using holds)
  | settled quiet settles =>
    obtain ⟨old, found, settled⟩ := settles.entry id eden entry
    exact ⟨old, found, .settled quiet settled⟩

/-- A transaction is ended by a monitored thread that holds it, and no longer does afterwards. -/
theorem endsBy_spec (stepped : step flags vm e = some after)
    (ends : endsBy flags vm e = some thread) :
    ∃ ostid, vm.threads ostid = some thread ∧ thread.monitorFilter = true ∧ thread.transID ≠ -1 ∧
      ∀ left, after.threads ostid = some left → left.transID = -1 := by
  cases step_effect stepped with
  | idle quiet | settled quiet settles => cases quiet.symm.trans ends
  | parked entry monitored outcome | awaits entry monitored outcome =>
    rw [outcome] at ends
    split at ends
    · rename_i valid
      cases ends
      refine ⟨_, entry, monitored, valid, fun left found => ?_⟩
      rcases update_eq_some found with ⟨-, rfl⟩ | ⟨apart, -⟩
      · rfl
      · exact absurd rfl apart
    · cases ends
  | exitedWithin entry valid outcome =>
    obtain ⟨-, holds⟩ := filter_eq_some_iff.mp outcome
    cases outcome.symm.trans ends
    exact ⟨_, entry, (Bool.and_eq_true_iff.mp holds).1, valid,
      fun left found => absurd rfl (remove_eq_some found).1⟩
  | exited entry outside =>
    obtain ⟨same, holds⟩ := filter_eq_some_iff.mp ends
    cases same.symm.trans entry
    exact absurd (by simpa using holds) outside
  | _ => cases ends

end ThreadEvents
