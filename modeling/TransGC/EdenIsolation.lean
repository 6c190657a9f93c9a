import TransGC.ThreadEvents

/-!
# Isolation of transactions

An eden of the table is free exactly when it carries no transaction, and no two edens carry the
same one. Every operation keeps both facts, so two threads are given the same eden only for the
same transaction, unless the eden was freed in between.
-/
namespace EdenIsolation
open EdenTable ThreadEvents TransitionRuns TransNewGeneration List Option

structure Isolated (gen : TransNewGeneration) : Prop where
  free : ∀ (id : Nat) (eden : TransEden), gen.transEdens[id]? = some eden →
    (eden.state = .available ↔ eden.transID = -1)
  apart : ∀ (id other : Nat) (eden twin : TransEden), gen.transEdens[id]? = some eden →
    gen.transEdens[other]? = some twin → eden.transID ≠ -1 → eden.transID = twin.transID →
    id = other

theorem initial_isolated (n : Nat) : Isolated (initial n) := by
  have entry : ∀ (id : Nat) (eden : TransEden),
      (initial n).transEdens[id]? = some eden → eden = TransEden.new := by
    intro id eden found
    exact (mem_replicate.mp (mem_of_getElem? found)).2
  constructor
  · intro id eden found
    rw [entry id eden found]
    decide
  · intro id other eden twin found _ owned _
    rw [entry id eden found] at owned
    exact absurd rfl owned

/-! ## One operation -/

section Operations

variable {gen after : TransNewGeneration}

theorem settled_isolated (isolated : Isolated gen)
    (settles : TransNewGeneration.TableSettled gen after) : Isolated after := by
  -- an eden that still carries a transaction carried it before
  have owner : ∀ (id : Nat) (eden : TransEden), after.transEdens[id]? = some eden →
      eden.transID ≠ -1 → ∃ old, gen.transEdens[id]? = some old ∧ eden.transID = old.transID := by
    intro id eden found owned
    obtain ⟨old, entry, settled⟩ := settles.entry id eden found
    cases settled with
    | kept owner state => exact ⟨old, entry, owner⟩
    | collecting owner ended scanned => exact ⟨old, entry, owner⟩
    | emptied owner free => exact absurd owner owned
  constructor
  · intro id eden found
    obtain ⟨old, entry, settled⟩ := settles.entry id eden found
    have before := isolated.free id old entry
    cases settled with
    | kept owner state =>
      rw [owner, state]
      exact before
    | collecting owner ended scanned =>
      rw [ended] at before
      rw [owner, scanned]
      simpa using before
    | emptied owner free => simp [owner, free]
  · intro id other eden twin found found' owned same
    obtain ⟨old, entry, kept⟩ := owner id eden found owned
    obtain ⟨old', entry', kept'⟩ := owner other twin found' (same ▸ owned)
    exact isolated.apart id other old old' entry entry' (kept ▸ owned)
      (kept.symm.trans (same.trans kept'))

/-- Rewriting one eden: it keeps its transaction or gets one that nobody has. -/
theorem rewrite_isolated {id : Nat} {eden next : TransEden} (isolated : Isolated gen)
    (entry : gen.transEdens[id]? = some eden) (written : after.transEdens = gen.transEdens.set id next)
    (free : next.state = .available ↔ next.transID = -1)
    (owner : next.transID = eden.transID ∨ ∀ other ∈ gen.transEdens, other.transID ≠ next.transID) :
    Isolated after := by
  have bound := (List.getElem?_eq_some_iff.mp entry).1
  have split : ∀ (other : Nat) (found : TransEden), after.transEdens[other]? = some found →
      (other = id ∧ found = next) ∨ (other ≠ id ∧ gen.transEdens[other]? = some found) := by
    intro other found here
    rw [written] at here
    by_cases target : id = other
    · subst target
      rw [List.getElem?_set_self bound] at here
      exact .inl ⟨rfl, (Option.some.inj here).symm⟩
    · rw [List.getElem?_set_ne target] at here
      exact .inr ⟨fun same => target same.symm, here⟩
  -- the rewritten eden shares its transaction with no other eden
  have alone : ∀ (other : Nat) (found : TransEden), other ≠ id →
      gen.transEdens[other]? = some found → next.transID ≠ -1 → next.transID ≠ found.transID := by
    intro other found elsewhere here owned same
    rcases owner with kept | fresh
    · exact elsewhere (isolated.apart id other eden found entry here (kept ▸ owned)
        (kept.symm.trans same)).symm
    · exact fresh found (List.mem_of_getElem? here) same.symm
  constructor
  · intro other found here
    rcases split other found here with ⟨-, rfl⟩ | ⟨-, kept⟩
    · exact free
    · exact isolated.free other found kept
  · intro left right eden' twin foundLeft foundRight owned same
    rcases split left eden' foundLeft with ⟨rfl, rfl⟩ | ⟨apartLeft, keptLeft⟩
    · rcases split right twin foundRight with ⟨rfl, -⟩ | ⟨apartRight, keptRight⟩
      · rfl
      · exact absurd same (alone right twin apartRight keptRight owned)
    · rcases split right twin foundRight with ⟨rfl, rfl⟩ | ⟨apartRight, keptRight⟩
      · exact absurd same.symm (alone left eden' apartLeft keptLeft (same ▸ owned))
      · exact isolated.apart left right eden' twin keptLeft keptRight owned same

theorem setCollectable_isolated (isolated : Isolated gen) (index threadCount : Int) {transID : Int}
    (valid : transID ≠ -1) :
    Isolated (gen.setTransEdenCollectable index transID threadCount) := by
  rcases gen.setTransEdenCollectable_cases index transID threadCount with
    ⟨-, same⟩ | ⟨id, eden, -, entry, owns, same⟩
  · rw [same]
    exact isolated
  · rw [same]
    apply rewrite_isolated isolated entry rfl
    · simp [owns, valid]
    · exact .inl rfl

theorem path_isolated {found trainingDone : Bool} {current caller : Thread} {eden : Option Nat}
    (isolated : Isolated gen)
    (path : TransNewGeneration.AllocationPath gen found trainingDone current ⟨eden, caller, after⟩) :
    Isolated after := by
  cases path with
  | assigned accept valid cache search room entry free =>
    apply rewrite_isolated isolated entry rfl
    · simp [valid]
    · exact .inr (searchTransID_eq_none.mp search)
  | _ => exact isolated

end Operations

/-! ## Every run -/

variable {flags : Flags} {vm after : VM} {e : Event}

theorem handIn_isolated (isolated : Isolated vm.gen) (thread : JavaThread) :
    Isolated (handIn vm thread) := by
  unfold handIn
  split
  · rename_i valid
    exact setCollectable_isolated isolated _ _ (hasValidTransID_iff.mp valid)
  · exact isolated

theorem step_isolated (isolated : Isolated vm.gen) (stepped : step flags vm e = some after) :
    Isolated after.gen := by
  cases step_effect stepped with
  | allocated entry path => exact path_isolated isolated path
  | parked | awaits | exitedWithin => exact handIn_isolated isolated _
  | settled quiet settles => exact settled_isolated isolated settles
  | _ => exact isolated

theorem reachable_isolated {n : Nat} {events : List Event}
    (reached : run (step flags) (VM.initial n) events = some vm) : Isolated vm.gen := by
  apply run_invariant (P := fun vm => Isolated vm.gen) _ (initial_isolated n) reached
  intro vm e after isolated stepped
  exact step_isolated isolated stepped

/-! ## Who is given an eden -/

/-- The thread `ostid` with the transaction `t` asks for an eden and is given the eden `id`. -/
def GivenEden (flags : Flags) (vm : VM) (ostid : Nat) (t : Int) (id : Nat) (after : VM) : Prop :=
  step flags vm (.getTransEdenToAllocate ostid) = some after ∧
    ∃ (caller : JavaThread) (out : Allocated), vm.threads ostid = some caller ∧ caller.transID = t ∧
      vm.gen.getTransEdenToAllocateNolock vm.isFoundTCPAcceptThread vm.trainingDone (.java caller) =
        some out ∧ out.eden = some id

def FreeEden (vm : VM) (id : Nat) : Prop :=
  ∃ eden, vm.gen.transEdens[id]? = some eden ∧ eden.state = .available

def OwnedEden (vm : VM) (id : Nat) (t : Int) : Prop :=
  ∃ eden, vm.gen.transEdens[id]? = some eden ∧ eden.transID = t

/-- A given eden carried the caller's transaction already, or was free. -/
theorem given_before {ostid id : Nat} {t : Int} (given : GivenEden flags vm ostid t id after) :
    OwnedEden vm id t ∨ FreeEden vm id := by
  obtain ⟨-, caller, ⟨eden, thread, gen⟩, -, rfl, returns, rfl⟩ := given
  cases getTransEdenToAllocateNolock_path returns with
  | cached accept valid cache entry owns held => exact .inl ⟨_, entry, owns⟩
  | searched accept valid cache search entry owns => exact .inl ⟨_, entry, owns⟩
  | assigned accept valid cache search room entry free => exact .inr ⟨_, entry, free⟩

theorem given_after {ostid id : Nat} {t : Int} (given : GivenEden flags vm ostid t id after) :
    OwnedEden after id t ∧ t ≠ -1 := by
  obtain ⟨stepped, caller, ⟨eden, thread, gen⟩, entry, rfl, returns, rfl⟩ := given
  simp only [ThreadEvents.step, entry, bind_some, getTransEdenToAllocate, returns, map_some,
    some.injEq] at stepped
  cases getTransEdenToAllocateNolock_path returns with
  | cached accept valid cache found owns | searched accept valid cache search found owns =>
    subst stepped
    exact ⟨⟨_, found, owns⟩, valid⟩
  | assigned accept valid cache search room found free =>
    subst stepped
    have bound := (List.getElem?_eq_some_iff.mp found).1
    exact ⟨⟨_, getElem?_set_self bound, rfl⟩, valid⟩

theorem owner_step {id : Nat} {t : Int} (owned : OwnedEden vm id t)
    (stepped : step flags vm e = some after) :
    OwnedEden after id t ∨ FreeEden vm id ∨ FreeEden after id := by
  obtain ⟨eden, entry, owner⟩ := owned
  have effect := step_effect stepped
  have bound : id < after.gen.transEdens.length := by
    have size : after.gen.transEdens.length = vm.gen.transEdens.length := effect_maxTransEden effect
    rw [size]
    exact (List.getElem?_eq_some_iff.mp entry).1
  have found := getElem?_eq_getElem bound
  obtain ⟨old, entry', change⟩ := effect_eden effect found
  obtain rfl : eden = old := some.inj (entry.symm.trans entry')
  cases change with
  | kept same | handedIn ends cache owns same => exact .inl ⟨_, found, same.trans owner⟩
  | assigned caller cached quiet valid uncached nobody free same state =>
    exact .inr (.inl ⟨eden, entry, free⟩)
  | settled quiet settles =>
    cases settles with
    | kept same | collecting same => exact .inl ⟨_, found, same.trans owner⟩
    | emptied none free => exact .inr (.inr ⟨_, found, free⟩)

/-- Along a run an eden keeps its transaction until it is free. -/
theorem owner_until_free {id : Nat} {t : Int} {events : List Event} {last : VM}
    (owned : OwnedEden vm id t) (reached : run (step flags) vm events = some last) :
    OwnedEden last id t ∨
      ∃ front back between, events = front ++ back ∧ run (step flags) vm front = some between ∧
        FreeEden between id := by
  induction events generalizing vm with
  | nil =>
    cases some.inj reached
    exact .inl owned
  | cons e events ih =>
    obtain ⟨next, head, tail⟩ := run_cons_eq_some.mp reached
    rcases owner_step owned head with kept | now | freed
    · rcases ih kept tail with stays | ⟨front, back, between, same, visited, free⟩
      · exact .inl stays
      · refine .inr ⟨e :: front, back, between, by rw [same]; rfl, ?_, free⟩
        exact run_cons_eq_some.mpr ⟨next, head, visited⟩
    · exact .inr ⟨[], e :: events, vm, rfl, rfl, now⟩
    · exact .inr ⟨[e], events, next, rfl, run_cons_eq_some.mpr ⟨next, head, rfl⟩, freed⟩

/-- In every reachable state an eden is free exactly when it carries no transaction and no two edens
carry the same one. A second thread that is given an eden carries the same transaction, unless the
eden was free in between. -/
theorem transactions_isolated {n : Nat} {events : List Event}
    (reached : run (step flags) (VM.initial n) events = some vm) :
    (∀ (id : Nat) (eden : TransEden), vm.gen.transEdens[id]? = some eden →
      (eden.state = .available ↔ eden.transID = -1)) ∧
    (∀ (id other : Nat) (eden twin : TransEden), vm.gen.transEdens[id]? = some eden →
      vm.gen.transEdens[other]? = some twin → eden.transID ≠ -1 → eden.transID = twin.transID →
      id = other) ∧
    ∀ (first second id : Nat) (t u : Int) (middle : List Event) (given later last : VM),
      GivenEden flags vm first t id given → run (step flags) given middle = some later →
      GivenEden flags later second u id last →
        t = u ∨ ∃ front back between, middle = front ++ back ∧
          run (step flags) given front = some between ∧ FreeEden between id := by
  have isolated := reachable_isolated reached
  refine ⟨isolated.free, isolated.apart, ?_⟩
  intro first second id t u middle given later last firstGiven visits secondGiven
  have owned := (given_after firstGiven).1
  rcases owner_until_free owned visits with ⟨eden, entry, owner⟩ | freed
  · rcases given_before secondGiven with ⟨twin, entry', owner'⟩ | free
    · rw [entry] at entry'
      cases some.inj entry'
      exact .inl (owner.symm.trans owner')
    · exact .inr ⟨middle, [], later, by simp, visits, free⟩
  · exact .inr freed

/-- An accept thread 1, its worker 2 with a first allocation, and a child 3. -/
private def workerWithChild : List Event :=
  [.threadStart 1 0 true, .threadStart 2 1 false, .getTransEdenToAllocate 2, .threadStart 3 2 false]

private def sharingFlags : Flags := ⟨true, true, true, false, false⟩

theorem worker_and_child_share_eden :
    ∃ vm given last, run (step sharingFlags) (VM.initial 2) workerWithChild = some vm ∧
      GivenEden sharingFlags vm 2 0 0 given ∧ GivenEden sharingFlags given 3 0 0 last ∧
      (∀ (id : Nat) (eden : TransEden), vm.gen.transEdens[id]? = some eden →
        (eden.state = .available ↔ eden.transID = -1)) ∧
      ∀ (u : Int), GivenEden sharingFlags given 3 u 0 last →
        0 = u ∨ ∃ front back between, [] = front ++ back ∧
          run (step sharingFlags) given front = some between ∧ FreeEden between 0 := by
  obtain ⟨vm, given, last, reached, first, second⟩ : ∃ vm given last,
      run (step sharingFlags) (VM.initial 2) workerWithChild = some vm ∧
      GivenEden sharingFlags vm 2 0 0 given ∧ GivenEden sharingFlags given 3 0 0 last :=
    ⟨_, _, _, rfl, ⟨rfl, _, _, rfl, rfl, rfl, rfl⟩, ⟨rfl, _, _, rfl, rfl, rfl, rfl⟩⟩
  obtain ⟨free, -, isolates⟩ := transactions_isolated reached
  refine ⟨vm, given, last, reached, first, second, free, ?_⟩
  intro u served
  exact isolates 2 3 0 0 u [] given given last first rfl served

end EdenIsolation
