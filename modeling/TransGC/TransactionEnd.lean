import Mathlib.Logic.Function.Basic
import TransGC.TransactionIds

/-!
# Who owns an assigned eden

A transaction end hands in the one eden that the ending thread has cached. A child that inherits
the transaction before its parent has an eden can get one that the parent never learns of. Along
runs without such children every assigned eden has a live monitored thread that runs its
transaction and caches its index, so a transaction end leaves no eden of it assigned.
-/
namespace TransactionEnd
open EdenTable ThreadEvents TransitionRuns TransactionIds Function Option

variable {flags : Flags} {vm after : VM} {e : Event}

/-- No ID is reused, a thread inherits a transaction only together with a cached eden, and one that
returns from `await` has ended its transaction. -/
structure Orderly (flags : Flags) (vm : VM) (e : Event) : Prop where
  room : CanDraw vm e
  inherits : ∀ ostid parent acceptName owner, e = .threadStart ostid parent acceptName →
    vm.threads parent = some owner → flags.countChildrenForTrans = true → owner.transID ≠ -1 →
    owner.transEdenID ≠ -1
  returns : ∀ ostid thread, e = .awaitExit ostid → vm.threads ostid = some thread →
    thread.monitorFilter = true → thread.transID = -1

structure Owned (vm : VM) : Prop where
  fresh : FreshIDs vm
  cached : ∀ ostid thread, vm.threads ostid = some thread → thread.monitorFilter = false →
    thread.transID ≠ -1 → thread.transEdenID ≠ -1
  lone : ∀ ostid thread, vm.threads ostid = some thread → thread.transID ≠ -1 →
    thread.transEdenID = -1 →
    (∀ (id : Nat) (eden : TransEden), vm.gen.transEdens[id]? = some eden →
      eden.transID ≠ thread.transID) ∧
    ∀ other found, vm.threads other = some found → found.transID = thread.transID → other = ostid
  owner : ∀ (id : Nat) (eden : TransEden), vm.gen.transEdens[id]? = some eden →
    eden.state = .assigned → ∃ ostid thread, vm.threads ostid = some thread ∧
      thread.monitorFilter = true ∧ thread.transID = eden.transID ∧ thread.transID ≠ -1 ∧
      thread.transEdenID = id

theorem step_cached (owned : Owned vm) (orderly : Orderly flags vm e)
    (effect : Effect flags vm e after) (ostid : Nat) (thread : JavaThread)
    (entry : after.threads ostid = some thread) (child : thread.monitorFilter = false)
    (valid : thread.transID ≠ -1) : thread.transEdenID ≠ -1 := by
  cases effect_thread effect entry with
  | same before transID cache monitor =>
    rw [cache]
    exact owned.cached _ _ before (monitor.symm.trans child) (transID ▸ valid)
  | outside invalid => exact absurd invalid valid
  | drawn actor counter transID cache monitor =>
    rw [monitor] at child
    cases child
  | inherited starts parent counted ownerValid transID cache monitor =>
    rw [cache]
    exact orderly.inherits _ _ _ _ starts parent counted ownerValid
  | located before ownerValid uncached transID cache monitor found owns => omega

section Lone

variable (owned : Owned vm) (orderly : Orderly flags vm e) (effect : Effect flags vm e after)
  {ostid : Nat} {thread : JavaThread} (entry : after.threads ostid = some thread)
  (valid : thread.transID ≠ -1) (uncached : thread.transEdenID = -1)
include owned orderly effect entry valid uncached

/-- A thread with a transaction and no eden was so already, or has just drawn the transaction. -/
theorem lone_before :
    (∃ old, vm.threads ostid = some old ∧ old.transID = thread.transID ∧ old.transEdenID = -1) ∨
      (thread.transID = vm.newTransID + 1 ∧ e.actor = some ostid) := by
  cases effect_thread effect entry with
  | same before transID cache monitor =>
    exact .inl ⟨_, before, transID.symm, cache.symm.trans uncached⟩
  | outside invalid => exact absurd invalid valid
  | drawn actor counter transID cache monitor =>
    rw [getNewTransID_eq owned.fresh.counter orderly.room] at transID
    exact .inr ⟨transID, actor⟩
  | inherited starts parent counted ownerValid transID cache monitor =>
    exact absurd (cache ▸ uncached) (orderly.inherits _ _ _ _ starts parent counted ownerValid)
  | located before ownerValid none transID cache monitor found owns => omega

/-- No eden carries the transaction of a thread that has no eden yet. -/
theorem step_lone_edens (id : Nat) (eden : TransEden)
    (here : after.gen.transEdens[id]? = some eden) : eden.transID ≠ thread.transID := by
  have before := lone_before owned orderly effect entry valid uncached
  obtain ⟨old, found, change⟩ := effect_eden effect here
  have absent : old.transID ≠ thread.transID := by
    rcases before with ⟨thread', entry', same, none⟩ | ⟨drawn, -⟩
    · rw [← same]
      exact (owned.lone ostid thread' entry' (same ▸ valid) none).1 id old found
    · have bounds := owned.fresh.edens id old found
      omega
  cases change with
  | kept owner state missed => rwa [owner]
  | settled quiet settles =>
    cases settles with
    | kept owner state => rwa [owner]
    | collecting owner ended scanned => rwa [owner]
    | emptied owner free => exact fun same => valid (same.symm.trans owner)
  | handedIn ends cache owns owner state => rwa [owner]
  | @assigned caller callerThread callerEntry callerCached quiet callerValid none nobody free owner =>
    rw [owner]
    intro same
    rcases before with ⟨thread', entry', same', none'⟩ | ⟨drawn, -⟩
    · -- the caller is the thread itself, and then it has an eden now
      have caller_eq := (owned.lone ostid thread' entry' (same' ▸ valid) none').2 caller
        callerThread callerEntry (same.trans same'.symm)
      subst caller_eq
      cases some.inj (entry.symm.trans callerCached)
      change (id : Int) = -1 at uncached
      omega
    · have bounds := owned.fresh.threads caller callerThread callerEntry
      omega

/-- No other thread shares the transaction of a thread that has no eden yet. -/
theorem step_lone_threads (other : Nat) (found : JavaThread)
    (here : after.threads other = some found) (same : found.transID = thread.transID) :
    other = ostid := by
  have next := getNewTransID_eq owned.fresh.counter orderly.room
  rcases lone_before owned orderly effect entry valid uncached with
    ⟨old, oldEntry, oldID, none⟩ | ⟨drawn, actor⟩
  · have alone := (owned.lone ostid old oldEntry (oldID ▸ valid) none).2
    have bounds := owned.fresh.threads ostid old oldEntry
    cases effect_thread effect here with
    | same before transID cache monitor => exact alone other _ before (by omega)
    | outside invalid => exact absurd (same.symm.trans invalid) valid
    | drawn actor counter transID cache monitor => omega
    | inherited starts parent counted ownerValid transID cache monitor =>
      -- the parent would be the thread without an eden
      have parent_eq := alone _ _ parent (by omega)
      subst parent_eq
      cases some.inj (oldEntry.symm.trans parent)
      exact absurd none (orderly.inherits _ _ _ _ starts oldEntry counted ownerValid)
    | located before ownerValid uncached' transID cache monitor found' owns =>
      exact alone other _ before (by omega)
  · cases effect_thread effect here with
    | same before | located before =>
      have := owned.fresh.threads _ _ before
      omega
    | outside invalid => exact absurd (same.symm.trans invalid) valid
    | drawn otherActs counter transID cache monitor =>
      rw [actor] at otherActs
      exact (some.inj otherActs).symm
    | inherited starts parent counted ownerValid transID cache monitor =>
      have := owned.fresh.threads _ _ parent
      omega

end Lone

/-- The monitored owner of an assigned eden survives every step that does not
hand the eden in. -/
theorem owner_survives (orderly : Orderly flags vm e) (effect : Effect flags vm e after)
    {ostid id : Nat} {thread : JavaThread} {eden : TransEden}
    (entry : vm.threads ostid = some thread) (monitored : thread.monitorFilter = true)
    (valid : thread.transID ≠ -1) (cache : thread.transEdenID = id)
    (found : vm.gen.transEdens[id]? = some eden) (owns : eden.transID = thread.transID)
    (held : eden.state = .assigned)
    (missed : ∀ ender, endsBy flags vm e = some ender →
      ¬(ender.transEdenID = id ∧ eden.transID = ender.transID)) :
    ∃ kept, after.threads ostid = some kept ∧ kept.monitorFilter = true ∧
      kept.transID = thread.transID ∧ kept.transEdenID = id := by
  have stays : after.threads ostid = vm.threads ostid →
      ∃ kept, after.threads ostid = some kept ∧ kept.monitorFilter = true ∧
        kept.transID = thread.transID ∧ kept.transEdenID = id :=
    fun same => ⟨thread, same.trans entry, monitored, rfl, cache⟩
  have alive : ∀ other, vm.threads other = none → ostid ≠ other := by
    rintro other missing rfl
    rw [entry] at missing
    cases missing
  have noEnd : ∀ other ender, ostid = other → vm.threads other = some ender →
      endsBy flags vm e = some ender → False := by
    rintro other ender rfl enderEntry ends
    cases some.inj (entry.symm.trans enderEntry)
    exact missed thread ends ⟨cache, owns⟩
  cases effect with
  | idle quiet => exact stays rfl
  | settled quiet settles => exact stays rfl
  | born fresh | worker fresh | workerStarted fresh =>
    exact stays (update_of_ne (alive _ fresh) _ _)
  | @child child parent _ owner fresh parentEntry =>
    have apart := alive child fresh
    by_cases here : ostid = parent
    · subst here
      cases some.inj (entry.symm.trans parentEntry)
      refine ⟨{ thread with
        threadCountsInTransaction := thread.threadCountsInTransaction + 1 }, ?_, monitored, rfl, cache⟩
      exact (update_of_ne apart _ _).trans (update_self _ _ _)
    · exact stays ((update_of_ne apart _ _).trans (update_of_ne here _ _))
  | @woken other found' started _ outside =>
    refine stays (update_of_ne ?_ _ _)
    rintro rfl
    cases some.inj (entry.symm.trans started)
    exact valid outside
  | @returned other found' started monitored' =>
    refine stays (update_of_ne ?_ _ _)
    rintro rfl
    cases some.inj (entry.symm.trans started)
    exact valid (orderly.returns _ _ rfl entry monitored)
  | @allocated caller callerThread next _ gen callerEntry path =>
    by_cases here : ostid = caller
    · subst here
      cases some.inj (entry.symm.trans callerEntry)
      have updated : ({ vm.setThread ostid next with gen := gen } : VM).threads ostid = some next :=
        update_self _ _ _
      cases path with
      | outside | cached => exact ⟨thread, updated, monitored, rfl, cache⟩
      | @ditched _ index lostEden _ _ index_eq lostEntry lost =>
        obtain rfl : index = id := by omega
        cases some.inj (found.symm.trans lostEntry)
        exact absurd ⟨owns.symm, held⟩ lost
      | searched _ _ uncached => omega
      | assigned _ _ uncached => omega
      | full _ _ uncached => omega
    · exact stays (update_of_ne here _ _)
  | @parked other ender enderEntry _ ends | @awaits other ender enderEntry _ ends =>
    refine stays (update_of_ne ?_ _ _)
    rintro rfl
    cases some.inj (entry.symm.trans enderEntry)
    exact noEnd ostid thread rfl entry (ends.trans (if_pos valid))
  | @exitedWithin other ender enderEntry _ ends =>
    by_cases here : ostid = other
    · exact (noEnd other ender here enderEntry ends).elim
    · exact stays ((update_of_ne here _ _).trans (update_of_ne here _ _))
  | @exited other ender enderEntry outside =>
    refine stays (update_of_ne ?_ _ _)
    rintro rfl
    cases some.inj (entry.symm.trans enderEntry)
    exact outside ⟨monitored, valid⟩

theorem step_owner (owned : Owned vm) (orderly : Orderly flags vm e)
    (effect : Effect flags vm e after) (id : Nat) (eden : TransEden)
    (entry : after.gen.transEdens[id]? = some eden) (held : eden.state = .assigned) :
    ∃ ostid thread, after.threads ostid = some thread ∧ thread.monitorFilter = true ∧
      thread.transID = eden.transID ∧ thread.transID ≠ -1 ∧ thread.transEdenID = id := by
  obtain ⟨old, found, change⟩ := effect_eden effect entry
  have survives : eden.transID = old.transID → eden.state = old.state →
      (∀ ender, endsBy flags vm e = some ender →
        ¬(ender.transEdenID = id ∧ old.transID = ender.transID)) →
      ∃ ostid thread, after.threads ostid = some thread ∧ thread.monitorFilter = true ∧
        thread.transID = eden.transID ∧ thread.transID ≠ -1 ∧ thread.transEdenID = id := by
    intro owner state missed
    have oldHeld := state.symm.trans held
    obtain ⟨ostid, thread, threadEntry, monitored, runs, valid, cache⟩ := owned.owner id old found oldHeld
    obtain ⟨kept, keptEntry, keptMonitored, keptID, keptCache⟩ :=
      owner_survives orderly effect threadEntry monitored valid cache found runs.symm oldHeld missed
    exact ⟨ostid, kept, keptEntry, keptMonitored, keptID.trans (runs.trans owner.symm),
      keptID ▸ valid, keptCache⟩
  cases change with
  | kept owner state missed => exact survives owner state missed
  | settled quiet settles =>
    cases settles with
    | kept owner state => exact survives owner state (by simp [quiet])
    | collecting owner ended scanned =>
      rw [scanned] at held
      cases held
    | emptied owner free =>
      rw [free] at held
      cases held
  | handedIn ends cache owns owner state =>
    rw [state] at held
    cases held
  | @assigned caller thread callerEntry callerCached quiet valid uncached nobody free owner state =>
    refine ⟨caller, _, callerCached, ?_, owner.symm, valid, rfl⟩
    -- a thread that is not monitored has its eden from its parent
    by_contra child
    exact owned.cached caller thread callerEntry (by simpa using child) valid uncached

theorem step_owned (owned : Owned vm) (stepped : step flags vm e = some after)
    (orderly : Orderly flags vm e) : Owned after where
  fresh := step_freshIDs owned.fresh orderly.room stepped
  cached := step_cached owned orderly (step_effect stepped)
  lone := fun _ _ entry valid uncached =>
    ⟨step_lone_edens owned orderly (step_effect stepped) entry valid uncached,
      step_lone_threads owned orderly (step_effect stepped) entry valid uncached⟩
  owner := step_owner owned orderly (step_effect stepped)

theorem initial_owned (n : Nat) : Owned (VM.initial n) where
  fresh := initial_freshIDs n
  cached := by
    intro ostid thread entry
    cases entry
  lone := by
    intro ostid thread entry
    cases entry
  owner := by
    intro id eden entry held
    rw [initial_entry entry] at held
    cases held

/-- Along an orderly run every assigned eden has a live monitored thread that runs its transaction,
and when a monitored thread ends its transaction no eden of it is left assigned. -/
theorem orderly_run_leaves_no_eden {n : Nat} {events : List Event}
    (orderly : Guarded (step flags) (Orderly flags) (VM.initial n) events)
    (reached : run (step flags) (VM.initial n) events = some vm) :
    (∀ (id : Nat) (eden : TransEden), vm.gen.transEdens[id]? = some eden →
      eden.state = .assigned → ∃ ostid, Runs vm ostid eden.transID) ∧
    ∀ e thread after, endsBy flags vm e = some thread → step flags vm e = some after →
      ∀ (id : Nat) (eden : TransEden), after.gen.transEdens[id]? = some eden →
        eden.transID = thread.transID → eden.state ≠ .assigned := by
  have owned : Owned vm := (along_of_guarded (fun _ _ _ owned stepped => step_owned owned stepped)
    (initial_owned n) orderly).last reached
  constructor
  · intro id eden entry held
    obtain ⟨ostid, thread, found, monitored, runs, -, -⟩ := owned.owner id eden entry held
    exact ⟨ostid, thread, found, monitored, runs⟩
  · intro e thread after ends stepped id eden entry owns held
    obtain ⟨ender, enderEntry, monitored, valid, -⟩ := endsBy_spec stepped ends
    obtain ⟨old, found, change⟩ := effect_eden (step_effect stepped) entry
    cases change with
    | kept owner state missed =>
      -- the owner of the eden is the ending thread, which hands in its cached eden
      obtain ⟨ostid, runner, runnerEntry, runnerMonitored, runs, -, cache⟩ :=
        owned.owner id old found (state.symm.trans held)
      have same := owned.fresh.single ender ostid thread.transID valid
        ⟨thread, enderEntry, monitored, rfl⟩
        ⟨runner, runnerEntry, runnerMonitored, by rw [runs, ← owner, owns]⟩
      subst same
      cases some.inj (enderEntry.symm.trans runnerEntry)
      exact missed thread ends ⟨cache, runs.symm⟩
    | settled quiet | assigned caller cached quiet =>
      rw [quiet] at ends
      cases ends
    | handedIn ends' cache owns' owner state =>
      rw [state] at held
      cases held

private def familyFlags : Flags := ⟨true, true, true, false, false⟩

/-- The worker 2 allocates before it starts its child 3, then parks. -/
private def lateChild : List Event :=
  [.threadStart 1 0 true, .threadStart 2 1 false, .getTransEdenToAllocate 2, .threadStart 3 2 false]

theorem late_child_leaves_no_eden :
    ∃ vm, run (step familyFlags) (VM.initial 1) lateChild = some vm ∧
      (∃ ostid, Runs vm ostid 0) ∧
      ∀ thread after, endsBy familyFlags vm (.park 2) = some thread →
        step familyFlags vm (.park 2) = some after →
        ∀ (id : Nat) (eden : TransEden), after.gen.transEdens[id]? = some eden →
          eden.transID = thread.transID → eden.state ≠ .assigned := by
  have orderly : Guarded (step familyFlags) (Orderly familyFlags) (VM.initial 1) lateChild := by
    rintro _ ⟨⟩
    refine ⟨⟨by unfold CanDraw; decide, ?_, by rintro _ _ ⟨⟩⟩, ?_⟩
    · rintro _ _ _ owner ⟨⟩ ⟨⟩
    rintro _ ⟨⟩
    refine ⟨⟨by unfold CanDraw; decide, ?_, by rintro _ _ ⟨⟩⟩, ?_⟩
    · rintro _ _ _ owner ⟨⟩ ⟨⟩ _ invalid
      exact absurd rfl invalid
    rintro _ ⟨⟩
    refine ⟨⟨by unfold CanDraw; decide, by rintro _ _ _ _ ⟨⟩, by rintro _ _ ⟨⟩⟩, ?_⟩
    rintro _ ⟨⟩
    refine ⟨⟨by unfold CanDraw; decide, ?_, by rintro _ _ ⟨⟩⟩, trivial⟩
    rintro _ _ _ owner ⟨⟩ ⟨⟩ _ _
    decide
  obtain ⟨vm, reached, entry, held⟩ :
      ∃ vm, run (step familyFlags) (VM.initial 1) lateChild = some vm ∧
        vm.gen.transEdens[0]? = some ⟨0, 0, false, false, .assigned, []⟩ ∧
        (⟨0, 0, false, false, .assigned, []⟩ : TransEden).state = .assigned := ⟨_, rfl, rfl, rfl⟩
  obtain ⟨owners, ends⟩ := orderly_run_leaves_no_eden orderly reached
  exact ⟨vm, reached, owners 0 _ entry held, ends (.park 2)⟩

/-- The child 3 allocates first. When the worker 2 ends the transaction it has no
cached eden, so the eden stays assigned and nobody runs its transaction. -/
theorem early_child_keeps_eden_assigned :
    ∃ before thread after, run (step familyFlags) (VM.initial 1)
        [.threadStart 1 0 true, .threadStart 2 1 false, .threadStart 3 2 false,
          .getTransEdenToAllocate 3] = some before ∧
      endsBy familyFlags before (.park 2) = some thread ∧
      step familyFlags before (.park 2) = some after ∧
      (after.gen.transEdens[0]?).map (fun eden => (eden.transID, eden.state)) =
        some (thread.transID, .assigned) ∧
      ∀ ostid, ¬Runs after ostid thread.transID := by
  refine ⟨_, _, _, rfl, rfl, rfl, rfl, ?_⟩
  rintro ostid ⟨thread, entry, monitored, runs⟩
  rcases update_eq_some entry with ⟨-, rfl⟩ | ⟨notWorker, entry⟩
  · cases runs
  rcases update_eq_some entry with ⟨-, rfl⟩ | ⟨notChild, entry⟩
  · cases monitored
  rcases update_eq_some entry with ⟨child, -⟩ | ⟨-, entry⟩
  · exact notChild child
  rcases update_eq_some entry with ⟨worker, -⟩ | ⟨-, entry⟩
  · exact notWorker worker
  rcases update_eq_some entry with ⟨worker, -⟩ | ⟨-, entry⟩
  · exact notWorker worker
  rcases update_eq_some entry with ⟨-, rfl⟩ | ⟨-, entry⟩
  · cases monitored
  · cases entry

end TransactionEnd
