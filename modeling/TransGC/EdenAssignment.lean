import Mathlib.Logic.Function.Basic
import TransGC.ThreadEvents

/-!
# Which eden an allocating thread gets

`getTransEdenToAllocate_nolock` serves its caller when it returns the null pointer, or an
assigned eden of the caller's transaction whose index the caller then caches. The cached path
checks the state of the eden and the fresh assignment sets it; the search through the table does
neither, and a call fails to serve its caller exactly when it meets an eden no longer assigned.
-/
namespace EdenAssignment
open EdenTable ThreadEvents TransitionRuns List Option Function

variable {flags : Flags} {vm after : VM} {Q : JavaThread → Prop} {e : Event}

/-! ## Facts about every live thread -/

def AllThreads (threads : Nat → Option JavaThread) (Q : JavaThread → Prop) : Prop :=
  ∀ ostid thread, threads ostid = some thread → Q thread

theorem AllThreads.update {threads : Nat → Option JavaThread} (every : AllThreads threads Q)
    (ostid : Nat) {thread : JavaThread} (holds : Q thread) :
    AllThreads (update threads ostid (some thread)) Q := by
  intro other found entry
  by_cases here : other = ostid
  · subst here
    rw [update_self] at entry
    cases some.inj entry
    exact holds
  · rw [update_of_ne here] at entry
    exact every other found entry

theorem AllThreads.remove {threads : Nat → Option JavaThread} (every : AllThreads threads Q)
    (ostid : Nat) : AllThreads (Function.update threads ostid none) Q := by
  intro other found entry
  by_cases here : other = ostid
  · subst here
    rw [update_self] at entry
    cases entry
  · rw [update_of_ne here] at entry
    exact every other found entry

/-! ## Cached indices stay inside the table -/

def InRange (size : Nat) (thread : JavaThread) : Prop :=
  thread.transEdenID ≠ -1 → ∃ id : Nat, thread.transEdenID = id ∧ id < size

def CachesInRange (vm : VM) : Prop := AllThreads vm.threads (InRange vm.gen.maxTransEden)

theorem path_inRange {gen next : TransNewGeneration} {found trainingDone : Bool}
    {thread caller : JavaThread} {eden : Option Nat} (before : InRange gen.maxTransEden thread)
    (path : TransNewGeneration.AllocationPath gen found trainingDone (.java thread)
      ⟨eden, .java caller, next⟩) : InRange gen.maxTransEden caller := by
  cases path with
  | outside reason => exact before
  | cached accept valid cache entry owns held => exact before
  | ditched accept valid cache entry lost => exact fun cached => absurd rfl cached
  | @searched _ id _ _ _ _ _ entry | @assigned _ id _ _ _ _ _ _ entry =>
    exact fun _ => ⟨id, rfl, (List.getElem?_eq_some_iff.mp entry).1⟩
  | full accept valid cache search noRoom => exact fun cached => absurd cache cached

theorem effect_cachesInRange (ranges : CachesInRange vm) (effect : Effect flags vm e after) :
    CachesInRange after := by
  have uncached : ∀ thread : JavaThread, thread.transEdenID = -1 →
      InRange vm.gen.maxTransEden thread := fun thread none cached => absurd none cached
  -- the table keeps its size, so only the threads that the event touches matter
  unfold CachesInRange
  rw [effect_maxTransEden effect]
  cases effect with
  | idle quiet => exact ranges
  | settled quiet settles => exact ranges
  | born | worker | workerStarted | woken | returned => exact ranges.update _ (uncached _ rfl)
  | @child ostid parent _ owner _ entry =>
    refine AllThreads.update (AllThreads.update ranges parent ?_) ostid ?_
    · exact ranges parent owner entry
    · exact ranges parent owner entry
  | @allocated ostid thread _ _ gen entry path =>
    exact ranges.update ostid (path_inRange (ranges ostid thread entry) path)
  | @parked ostid thread entry | @awaits ostid thread entry =>
    refine AllThreads.update ranges ostid ?_
    exact ranges ostid thread entry
  | @exitedWithin ostid thread entry =>
    refine AllThreads.remove (AllThreads.update ranges ostid ?_) ostid
    exact ranges ostid thread entry
  | exited entry outside => exact ranges.remove _

theorem reachable_cachesInRange {n : Nat} {events : List Event}
    (reached : run (step flags) (VM.initial n) events = some vm) : CachesInRange vm := by
  refine run_invariant (fun _ _ _ ranges stepped => effect_cachesInRange ranges (step_effect stepped))
    ?_ reached
  intro ostid thread entry
  cases entry

/-! ## The returned eden -/

/-- The call returns null, or an assigned eden of the caller's transaction that it now caches. -/
def ServesCaller (current : Thread) (out : Allocated) : Prop :=
  out.eden = none ∨
    ∃ (caller served : JavaThread) (id : Nat) (eden : TransEden), current = .java caller ∧
      out.eden = some id ∧ out.gen.transEdens[id]? = some eden ∧ eden.state = .assigned ∧
      eden.transID = caller.transID ∧ out.thread = .java served ∧ served.transEdenID = id

/-- The caller has no cached eden, and the first eden with its transaction is not assigned. -/
def StaleSearch (vm : VM) (current : Thread) : Prop :=
  vm.isFoundTCPAcceptThread = true ∧
    ∃ (caller : JavaThread) (id : Nat) (eden : TransEden), current = .java caller ∧
      caller.transID ≠ -1 ∧ caller.transEdenID = -1 ∧
      vm.gen.searchTransID caller.transID = some id ∧ vm.gen.transEdens[id]? = some eden ∧
      eden.state ≠ .assigned

theorem path_serves_iff {current : Thread} {out : Allocated}
    (path : TransNewGeneration.AllocationPath vm.gen vm.isFoundTCPAcceptThread vm.trainingDone
      current out) : ServesCaller current out ↔ ¬StaleSearch vm current := by
  cases path with
  | outside reason =>
    refine iff_of_true (.inl rfl) ?_
    rintro ⟨found, caller, id, eden, rfl, valid, -⟩
    rcases reason with missing | other | ⟨thread, same, invalid⟩
    · rw [found] at missing
      cases missing
    · cases other
    · cases same
      exact valid invalid
  | @cached thread id eden accept valid cache entry owns held =>
    refine iff_of_true (.inr ⟨thread, thread, id, eden, rfl, rfl, entry, held, owns, rfl, cache⟩) ?_
    rintro ⟨-, caller, -, -, same, -, uncached, -⟩
    cases same
    omega
  | ditched accept valid cache entry lost =>
    refine iff_of_true (.inl rfl) ?_
    rintro ⟨-, caller, -, -, same, -, uncached, -⟩
    cases same
    omega
  | @searched thread id eden accept valid cache search entry owns =>
    constructor
    · rintro (null | ⟨caller, served, returned, given, same, result, entry, held, -⟩)
        ⟨-, other, first, stale, callers, -, -, search', entry', moved⟩
      · cases null
      · cases some.inj result
        cases callers
        rw [search] at search'
        cases some.inj search'
        rw [entry] at entry'
        cases some.inj entry'
        exact moved held
    · intro fresh
      have held : eden.state = .assigned := by
        by_contra moved
        exact fresh ⟨accept, thread, id, eden, rfl, valid, cache, search, entry, moved⟩
      exact .inr ⟨thread, _, id, eden, rfl, rfl, entry, held, owns, rfl, rfl⟩
  | @assigned thread id eden accept valid cache search room entry free =>
    have bound := (List.getElem?_eq_some_iff.mp entry).1
    refine iff_of_true (.inr ⟨thread, _, id, _, rfl, rfl, getElem?_set_self bound, rfl, rfl, rfl,
      rfl⟩) ?_
    rintro ⟨-, caller, other, -, same, -, -, elsewhere, -⟩
    cases same
    rw [search] at elsewhere
    cases elsewhere
  | full accept valid cache search noRoom =>
    refine iff_of_true (.inl rfl) ?_
    rintro ⟨-, caller, other, -, same, -, -, elsewhere, -⟩
    cases same
    rw [search] at elsewhere
    cases elsewhere

/-- A call by a thread whose cached index is in range has a result. -/
theorem allocate_returns {current : Thread}
    (ranges : ∀ caller, current = .java caller → InRange vm.gen.maxTransEden caller) :
    ∃ out, vm.gen.getTransEdenToAllocateNolock vm.isFoundTCPAcceptThread vm.trainingDone current =
      some out := by
  unfold TransNewGeneration.getTransEdenToAllocateNolock
  split
  · exact ⟨_, rfl⟩
  · cases current with
    | vm => exact ⟨_, rfl⟩
    | java caller =>
      dsimp only
      split
      · exact ⟨_, rfl⟩
      · split
        · exact ⟨_, rfl⟩
        · rename_i cached
          obtain ⟨id, same, bound⟩ := ranges caller rfl cached
          have entry : vm.gen.getTransEden caller.transEdenID = some vm.gen.transEdens[id] := by
            rw [same, TransNewGeneration.getTransEden_natCast]
            exact getElem?_eq_getElem bound
          rw [entry]
          exact ⟨_, rfl⟩

/-- In every reachable state every call has a result, and the result serves the caller unless the
search meets a stale eden. -/
theorem allocation_serves_caller_iff {n : Nat} {events : List Event} {current : Thread}
    (reached : run (step flags) (VM.initial n) events = some vm)
    (calls : current = .vm ∨
      ∃ ostid caller, vm.threads ostid = some caller ∧ current = .java caller) :
    ∃ out, vm.gen.getTransEdenToAllocateNolock vm.isFoundTCPAcceptThread vm.trainingDone current =
        some out ∧ (ServesCaller current out ↔ ¬StaleSearch vm current) := by
  have ranges : ∀ caller, current = .java caller → InRange vm.gen.maxTransEden caller := by
    rintro caller rfl
    rcases calls with none | ⟨ostid, thread, entry, same⟩
    · cases none
    · cases same
      exact reachable_cachesInRange reached ostid _ entry
  obtain ⟨out, returns⟩ := allocate_returns ranges
  exact ⟨out, returns, path_serves_iff (TransNewGeneration.getTransEdenToAllocateNolock_path returns)⟩

/-- An accept thread 1, a worker 2 and a child 3 that the worker starts before
its first allocation. -/
private def workerAndChild : List Event :=
  [.threadStart 1 0 true, .threadStart 2 1 false, .threadStart 3 2 false, .getTransEdenToAllocate 2]

private def parkFlags : Flags := ⟨true, true, true, false, false⟩

theorem child_served_while_parent_runs :
    ∃ vm out, run (step parkFlags) (VM.initial 1) workerAndChild = some vm ∧
      vm.gen.getTransEdenToAllocateNolock vm.isFoundTCPAcceptThread vm.trainingDone
        (.java ⟨0, -1, false, false, 1⟩) = some out ∧
      (ServesCaller (.java ⟨0, -1, false, false, 1⟩) out ↔
        ¬StaleSearch vm (.java ⟨0, -1, false, false, 1⟩)) := by
  obtain ⟨vm, reached, entry⟩ : ∃ vm, run (step parkFlags) (VM.initial 1) workerAndChild = some vm ∧
      vm.threads 3 = some ⟨0, -1, false, false, 1⟩ := ⟨_, rfl, rfl⟩
  obtain ⟨out, returns, serves⟩ := allocation_serves_caller_iff reached (.inr ⟨3, _, entry, rfl⟩)
  exact ⟨vm, out, reached, returns, serves⟩

/-- Once the worker has parked, its eden is collectable; the search of the child still finds it. -/
theorem child_gets_collectable_eden :
    ∃ vm caller out, run (step parkFlags) (VM.initial 1) (workerAndChild ++ [.park 2]) = some vm ∧
      vm.threads 3 = some caller ∧
      vm.gen.getTransEdenToAllocateNolock vm.isFoundTCPAcceptThread vm.trainingDone (.java caller) =
        some out ∧
      out.eden = some 0 ∧ (out.gen.transEdens[0]?).map TransEden.state = some .collectable ∧
      ¬ServesCaller (.java caller) out := by
  refine ⟨_, _, _, rfl, rfl, rfl, rfl, rfl, ?_⟩
  rintro (null | ⟨caller, served, id, eden, -, result, entry, held, -⟩)
  · cases null
  · cases result
    cases entry
    cases held

end EdenAssignment
