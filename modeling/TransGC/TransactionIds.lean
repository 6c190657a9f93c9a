import Mathlib.Logic.Function.Basic
import TransGC.ThreadEvents

/-!
# The life of a transaction ID

Transaction IDs are drawn from one 32-bit counter. As long as it does not wrap around, an ID is held
by at most one monitored thread, an eden that carries the ID of a running transaction is assigned,
and an eden is handed in at most once for each assignment. A stale eden index does no harm: the
transaction that is handed in is compared with the one the eden carries.
-/
namespace TransactionIds
open EdenTable ThreadEvents TransitionRuns List Option

variable {flags : Flags} {vm after : VM} {e : Event} {id n ostid : Nat} {eden old : TransEden}
  {t : Int} {events : List Event}

/-- The number of transaction IDs that a run draws: the steps that move the
counter. -/
def transactions (flags : Flags) (vm : VM) : List Event → Nat
  | [] => 0
  | e :: events =>
    match step flags vm e with
    | some after =>
      (if after.newTransID = vm.newTransID then 0 else 1) + transactions flags after events
    | none => 0

/-- The counter can still be incremented without leaving the `int` range. -/
def CanDraw (vm : VM) (_ : Event) : Prop := vm.newTransID < 2 ^ 31 - 1

/-- A monitored thread that currently runs the transaction `t`. -/
def Runs (vm : VM) (ostid : Nat) (t : Int) : Prop :=
  ∃ thread, vm.threads ostid = some thread ∧ thread.monitorFilter = true ∧ thread.transID = t

structure FreshIDs (vm : VM) : Prop where
  counter : -1 ≤ vm.newTransID
  threads : ∀ ostid thread, vm.threads ostid = some thread →
    -1 ≤ thread.transID ∧ thread.transID ≤ vm.newTransID
  edens : ∀ (id : Nat) (eden : TransEden), vm.gen.transEdens[id]? = some eden →
    -1 ≤ eden.transID ∧ eden.transID ≤ vm.newTransID
  single : ∀ left right t, t ≠ -1 → Runs vm left t → Runs vm right t → left = right
  running : ∀ (id : Nat) (eden : TransEden), vm.gen.transEdens[id]? = some eden →
    eden.transID ≠ -1 → ∀ ostid, Runs vm ostid eden.transID → eden.state = .assigned
  free : ∀ (id : Nat) (eden : TransEden), vm.gen.transEdens[id]? = some eden →
    eden.state = .available → eden.transID = -1

theorem getNewTransID_eq (counter : -1 ≤ vm.newTransID) (room : CanDraw vm e) :
    vm.getNewTransID = vm.newTransID + 1 := by
  unfold CanDraw at room
  exact Int.bmod_eq_of_le (by omega) (by omega)

theorem effect_newTransID (effect : Effect flags vm e after) :
    after.newTransID = vm.newTransID ∨ after.newTransID = vm.getNewTransID := by
  cases effect with
  | workerStarted fresh => exact .inr rfl
  | woken entry monitored outside => exact .inr rfl
  | returned entry monitored => exact .inr rfl
  | _ => exact .inl rfl

/-- A monitored thread that runs a transaction drew its ID in the step, or ran it before. -/
theorem runs_before (effect : Effect flags vm e after) (valid : t ≠ -1)
    (runs : Runs after ostid t) :
    Runs vm ostid t ∨ (t = vm.getNewTransID ∧ e.actor = some ostid) := by
  obtain ⟨thread, entry, monitored, rfl⟩ := runs
  cases effect_thread effect entry with
  | same before transID cache monitor | located before valid' uncached transID cache monitor =>
    exact .inl ⟨_, before, monitor.symm.trans monitored, transID.symm⟩
  | outside invalid => exact absurd invalid valid
  | drawn actor counter transID cache monitor => exact .inr ⟨transID, actor⟩
  | inherited starts parent counted inheritedValid transID cache monitor =>
    rw [monitor] at monitored
    cases monitored

theorem runs_bounded (fresh : FreshIDs vm) (runs : Runs vm ostid t) : t ≤ vm.newTransID := by
  obtain ⟨thread, entry, -, rfl⟩ := runs
  exact (fresh.threads ostid thread entry).2

section Bounds

variable (fresh : FreshIDs vm) (room : CanDraw vm e) (effect : Effect flags vm e after)
include fresh room effect

theorem newTransID_mono : vm.newTransID ≤ after.newTransID := by
  have next := getNewTransID_eq fresh.counter room
  rcases effect_newTransID effect with same | drawn
  · omega
  · omega

theorem threads_bounded (ostid : Nat) (thread : JavaThread)
    (entry : after.threads ostid = some thread) :
    -1 ≤ thread.transID ∧ thread.transID ≤ after.newTransID := by
  have next := getNewTransID_eq fresh.counter room
  have grows := newTransID_mono fresh room effect
  have counter := fresh.counter
  cases effect_thread effect entry with
  | same before | located before =>
    have := fresh.threads _ _ before
    omega
  | outside invalid => omega
  | drawn actor counter transID cache monitor => omega
  | inherited starts parent counted inheritedValid transID cache monitor =>
    have := fresh.threads _ _ parent
    omega

theorem edens_bounded (id : Nat) (eden : TransEden)
    (entry : after.gen.transEdens[id]? = some eden) :
    -1 ≤ eden.transID ∧ eden.transID ≤ after.newTransID := by
  have grows := newTransID_mono fresh room effect
  have counter := fresh.counter
  obtain ⟨old, found, change⟩ := effect_eden effect entry
  have bounds := fresh.edens id old found
  cases change with
  | kept owner state missed => omega
  | settled quiet settles =>
    cases settles with
    | kept owner state => omega
    | collecting owner ended scanned => omega
    | emptied owner free => omega
  | handedIn ends cache owns owner state => omega
  | assigned caller cached quiet valid uncached nobody free owner state =>
    have := fresh.threads _ _ caller
    omega

theorem single_runner (left right : Nat) (t : Int) (valid : t ≠ -1)
    (leftRuns : Runs after left t) (rightRuns : Runs after right t) : left = right := by
  have next := getNewTransID_eq fresh.counter room
  rcases runs_before effect valid leftRuns with leftBefore | ⟨leftNew, leftActs⟩
  · have leftBound := runs_bounded fresh leftBefore
    rcases runs_before effect valid rightRuns with rightBefore | ⟨rightNew, -⟩
    · exact fresh.single left right t valid leftBefore rightBefore
    · omega
  · rcases runs_before effect valid rightRuns with rightBefore | ⟨-, rightActs⟩
    · have rightBound := runs_bounded fresh rightBefore
      omega
    · rw [leftActs] at rightActs
      exact some.inj rightActs

end Bounds

/-- An eden of a transaction that a monitored thread still runs stays assigned. -/
theorem running_assigned (fresh : FreshIDs vm) (room : CanDraw vm e)
    (stepped : step flags vm e = some after) (id : Nat) (eden : TransEden)
    (entry : after.gen.transEdens[id]? = some eden) (valid : eden.transID ≠ -1) (ostid : Nat)
    (runs : Runs after ostid eden.transID) : eden.state = .assigned := by
  have effect := step_effect stepped
  have next := getNewTransID_eq fresh.counter room
  obtain ⟨old, found, change⟩ := effect_eden effect entry
  have bounds := fresh.edens id old found
  have before : old.transID = eden.transID → Runs vm ostid old.transID := by
    intro same
    rw [same]
    rcases runs_before effect valid runs with earlier | ⟨new, -⟩
    · exact earlier
    · omega
  have kept : eden.transID = old.transID → old.state = .assigned := fun owner =>
    fresh.running id old found (owner ▸ valid) ostid (before owner.symm)
  cases change with
  | kept owner state missed => exact state.trans (kept owner)
  | settled quiet settles =>
    cases settles with
    | kept owner state => exact state.trans (kept owner)
    | collecting owner ended scanned =>
      have held := kept owner
      rw [ended] at held
      cases held
    | emptied owner free => exact absurd owner valid
  | @handedIn thread ends cache owns owner state =>
    -- the thread that hands the eden in is the one that runs the transaction
    obtain ⟨ender, enderEntry, monitored, enderValid, gone⟩ := endsBy_spec stepped ends
    have enderRuns : Runs vm ender old.transID := ⟨thread, enderEntry, monitored, owns.symm⟩
    have same := fresh.single ender ostid _ (owner ▸ valid) enderRuns (before owner.symm)
    subst same
    obtain ⟨left, leftEntry, -, leftID⟩ := runs
    exact absurd (leftID.symm.trans (gone left leftEntry)) valid
  | assigned caller cached quiet callerValid uncached nobody free owner state => exact state

theorem free_unowned (fresh : FreshIDs vm) (effect : Effect flags vm e after) (id : Nat)
    (eden : TransEden) (entry : after.gen.transEdens[id]? = some eden)
    (free : eden.state = .available) : eden.transID = -1 := by
  obtain ⟨old, found, change⟩ := effect_eden effect entry
  cases change with
  | kept owner state missed => exact owner.trans (fresh.free id old found (state.symm.trans free))
  | settled quiet settles =>
    cases settles with
    | kept owner state => exact owner.trans (fresh.free id old found (state.symm.trans free))
    | collecting owner ended scanned =>
      rw [scanned] at free
      cases free
    | emptied owner _ => exact owner
  | handedIn ends cache owns owner state
  | assigned caller cached quiet valid uncached nobody _ owner state =>
    rw [state] at free
    cases free

theorem step_freshIDs (fresh : FreshIDs vm) (room : CanDraw vm e)
    (stepped : step flags vm e = some after) : FreshIDs after where
  counter := le_trans fresh.counter (newTransID_mono fresh room (step_effect stepped))
  threads := threads_bounded fresh room (step_effect stepped)
  edens := edens_bounded fresh room (step_effect stepped)
  single := single_runner fresh room (step_effect stepped)
  running := running_assigned fresh room stepped
  free := free_unowned fresh (step_effect stepped)

theorem initial_freshIDs (n : Nat) : FreshIDs (VM.initial n) := by
  have edens : ∀ (id : Nat) (eden : TransEden),
      (VM.initial n).gen.transEdens[id]? = some eden → eden.transID = -1 := by
    intro id eden entry
    have member := mem_of_getElem? entry
    simp only [VM.initial, TransNewGeneration.initial, mem_replicate] at member
    rw [member.2]
    rfl
  refine ⟨le_refl _, ?_, ?_, ?_, ?_, fun id eden entry _ => edens id eden entry⟩
  · intro ostid thread entry
    cases entry
  · intro id eden entry
    rw [edens id eden entry]
    exact ⟨le_refl _, le_refl _⟩
  · rintro left right t - ⟨thread, entry, -⟩
    cases entry
  · intro id eden entry valid
    exact absurd (edens id eden entry) valid

/-- With fewer than `2 ^ 31` transactions the counter never wraps around. -/
theorem canDraw_guarded (counter : -1 ≤ vm.newTransID)
    (few : vm.newTransID + transactions flags vm events < 2 ^ 31 - 1) :
    Guarded (step flags) CanDraw vm events := by
  induction events generalizing vm with
  | nil => trivial
  | cons e events ih =>
    intro after stepped
    have room : CanDraw vm e := by
      unfold CanDraw
      omega
    refine ⟨room, ?_⟩
    rw [transactions, stepped] at few
    have next := getNewTransID_eq counter room
    rcases effect_newTransID (step_effect stepped) with same | drawn
    · simp only [same, if_true] at few
      exact ih (by omega) (by omega)
    · simp only [show ¬after.newTransID = vm.newTransID by omega, if_false] at few
      exact ih (by omega) (by omega)

theorem initial_guarded (few : transactions flags (VM.initial n) events < 2 ^ 31) :
    Guarded (step flags) CanDraw (VM.initial n) events := by
  have start : (VM.initial n).newTransID = -1 := rfl
  exact canDraw_guarded (by omega) (by omega)

theorem along_freshIDs (few : transactions flags (VM.initial n) events < 2 ^ 31) :
    Along (step flags) FreshIDs (VM.initial n) events :=
  along_of_guarded (fun _ _ _ fresh stepped room => step_freshIDs fresh room stepped)
    (initial_freshIDs n) (initial_guarded few)

/-! ## The writes to one eden -/

inductive EdenWrite where
  | assigned (transID : Int)
  | collectable (found : State)
  | reset
  deriving DecidableEq, Repr

/-- `set_transEden_collectable` writes the eden when the ending thread caches the index and holds
the transaction the eden carries. -/
def edenWrite (flags : Flags) (vm : VM) (e : Event) (id : Nat) (old eden : TransEden) :
    Option EdenWrite :=
  match endsBy flags vm e with
  | some thread =>
    if thread.transEdenID = id ∧ old.transID = thread.transID then some (.collectable old.state)
    else none
  | none =>
    if old.state = .available ∧ eden.state = .assigned then some (.assigned eden.transID)
    else if old.state ≠ .available ∧ eden.state = .available then some .reset
    else none

def history (flags : Flags) (id : Nat) (vm : VM) : List Event → List EdenWrite
  | [] => []
  | e :: events =>
    match step flags vm e with
    | some after =>
      match vm.gen.transEdens[id]?, after.gen.transEdens[id]? with
      | some old, some eden =>
        (edenWrite flags vm e id old eden).toList ++ history flags id after events
      | _, _ => history flags id after events
    | none => []

/-- Each assignment is followed by at most one write of `Collectable`, from state `Assigned`; `held`
says whether an assignment is still open. -/
def Disciplined : Bool → List EdenWrite → Prop
  | _, [] => True
  | _, .assigned _ :: writes => Disciplined true writes
  | held, .collectable found :: writes => held = true ∧ found = .assigned ∧ Disciplined false writes
  | _, .reset :: writes => Disciplined false writes

/-- The transaction that an eden was last handed to, if it was not reset since. -/
def lastOwner : Option Int → List EdenWrite → Option Int
  | owner, [] => owner
  | _, .assigned transID :: writes => lastOwner (some transID) writes
  | owner, .collectable _ :: writes => lastOwner owner writes
  | _, .reset :: writes => lastOwner none writes

/-- What a write says about the eden before and after it. -/
inductive WriteEffect (old eden : TransEden) : Option EdenWrite → Prop
  | unwritten (state : eden.state = .assigned ↔ old.state = .assigned)
      (owner : eden.transID = old.transID) : WriteEffect old eden none
  | assigned (state : eden.state = .assigned) :
      WriteEffect old eden (some (.assigned eden.transID))
  | collectable (held : old.state = .assigned) (state : eden.state = .collectable)
      (owner : eden.transID = old.transID) : WriteEffect old eden (some (.collectable old.state))
  | reset (state : eden.state = .available) (owner : eden.transID = -1) :
      WriteEffect old eden (some .reset)

theorem edenWrite_effect (fresh : FreshIDs vm) (stepped : step flags vm e = some after)
    (found : vm.gen.transEdens[id]? = some old) (entry : after.gen.transEdens[id]? = some eden) :
    WriteEffect old eden (edenWrite flags vm e id old eden) := by
  obtain ⟨same, found', change⟩ := effect_eden (step_effect stepped) entry
  rw [found] at found'
  cases some.inj found'
  cases change with
  | @handedIn thread ends cache owns owner state =>
    obtain ⟨ender, enderEntry, monitored, valid, -⟩ := endsBy_spec stepped ends
    have held := fresh.running id old found (owns ▸ valid) ender
      ⟨thread, enderEntry, monitored, owns.symm⟩
    simpa [edenWrite, ends, cache, owns] using .collectable held state owner
  | assigned caller cached quiet valid uncached nobody free owner state =>
    simpa [edenWrite, quiet, free, state] using .assigned state
  | kept owner state missed =>
    have unwritten : edenWrite flags vm e id old eden = none := by
      unfold edenWrite
      split
      · rename_i thread ends
        rw [if_neg (missed thread ends)]
      · rw [if_neg (by rw [state]; rintro ⟨free, held⟩; rw [free] at held; cases held),
          if_neg (by rw [state]; exact fun both => both.1 both.2)]
    rw [unwritten]
    exact .unwritten (by rw [state]) owner
  | settled quiet settles =>
    simp only [edenWrite, quiet]
    cases settles with
    | kept owner state =>
      rw [if_neg (by rw [state]; rintro ⟨free, held⟩; rw [free] at held; cases held),
        if_neg (by rw [state]; exact fun both => both.1 both.2)]
      exact .unwritten (by rw [state]) owner
    | collecting owner ended scanned =>
      simpa [ended, scanned] using .unwritten (by simp [ended, scanned]) owner
    | emptied owner free =>
      by_cases before : old.state = .available
      · have unowned := fresh.free id old found before
        simpa [free, before] using .unwritten (by simp [free, before]) (owner.trans unowned.symm)
      · simpa [free, before] using .reset free owner

/-- The table keeps its size, so an eden has an entry after every step. -/
theorem entry_after (effect : Effect flags vm e after) (found : vm.gen.transEdens[id]? = some old) :
    ∃ eden, after.gen.transEdens[id]? = some eden := by
  have bound : id < vm.gen.maxTransEden := (List.getElem?_eq_some_iff.mp found).1
  rw [← effect_maxTransEden effect] at bound
  exact ⟨_, getElem?_eq_getElem bound⟩

/-- The writes to one eden along a run start from the state the eden is in. -/
theorem history_disciplined (along : Along (step flags) FreshIDs vm events)
    (found : vm.gen.transEdens[id]? = some old) :
    Disciplined (old.state == .assigned) (history flags id vm events) := by
  induction events generalizing vm old with
  | nil => trivial
  | cons e events ih =>
    rw [history]
    cases stepped : step flags vm e with
    | none => trivial
    | some after =>
      obtain ⟨eden, entry⟩ := entry_after (step_effect stepped) found
      have rest := ih (along.2 after stepped) entry
      have written := edenWrite_effect along.1 stepped found entry
      simp only [found, entry]
      generalize edenWrite flags vm e id old eden = write at written ⊢
      cases written with
      | unwritten state owner =>
        have same : (eden.state == .assigned) = (old.state == .assigned) := by
          rw [Bool.eq_iff_iff, beq_iff_eq, beq_iff_eq]
          exact state
        rw [same] at rest
        exact rest
      | assigned state | reset state =>
        rw [state] at rest
        exact rest
      | collectable held state owner =>
        rw [state] at rest
        exact ⟨by simp [held], held, rest⟩

/-- The eden carries the transaction that it was last handed to. -/
theorem history_lastOwner {last : VM} (owner : Option Int)
    (along : Along (step flags) FreshIDs vm events) (found : vm.gen.transEdens[id]? = some old)
    (reached : run (step flags) vm events = some last) (carries : old.transID = owner.getD (-1)) :
    ∃ eden, last.gen.transEdens[id]? = some eden ∧
      eden.transID = (lastOwner owner (history flags id vm events)).getD (-1) := by
  induction events generalizing vm old owner with
  | nil =>
    cases some.inj reached
    exact ⟨old, found, carries⟩
  | cons e events ih =>
    obtain ⟨after, stepped, tail⟩ := run_cons_eq_some.mp reached
    obtain ⟨eden, entry⟩ := entry_after (step_effect stepped) found
    have later := along.2 after stepped
    have written := edenWrite_effect along.1 stepped found entry
    rw [history]
    simp only [stepped, found, entry]
    generalize edenWrite flags vm e id old eden = write at written ⊢
    cases written with
    | unwritten state same | collectable held state same =>
      exact ih _ later entry tail (same.trans carries)
    | assigned state => exact ih _ later entry tail rfl
    | reset state unowned => exact ih _ later entry tail unowned

/-- Whoever runs a drawn transaction at the end ran it in every state before. -/
theorem runs_throughout {last : VM} (valid : t ≠ -1)
    (along : Along (step flags) FreshIDs vm events)
    (guarded : Guarded (step flags) CanDraw vm events) (drawn : t ≤ vm.newTransID)
    (reached : run (step flags) vm events = some last) (runs : Runs last ostid t) :
    Along (step flags) (fun vm => Runs vm ostid t) vm events := by
  induction events generalizing vm with
  | nil =>
    cases some.inj reached
    exact runs
  | cons e events ih =>
    obtain ⟨after, stepped, tail⟩ := run_cons_eq_some.mp reached
    obtain ⟨room, rest⟩ := guarded after stepped
    have effect := step_effect stepped
    have grows := newTransID_mono along.1 room effect
    have later := ih (along.2 after stepped) rest (by omega) tail
    have next := getNewTransID_eq along.1.counter room
    refine ⟨?_, fun other same => ?_⟩
    · rcases runs_before effect valid later.head with before | ⟨new, -⟩
      · exact before
      · omega
    · rw [stepped] at same
      cases some.inj same
      exact later

theorem history_outside (outside : vm.gen.transEdens[id]? = none) :
    history flags id vm events = [] := by
  induction events generalizing vm with
  | nil => rfl
  | cons e events ih =>
    rw [history]
    cases stepped : step flags vm e with
    | none => rfl
    | some after =>
      simp only [outside]
      refine ih (getElem?_eq_none ?_)
      have size := effect_maxTransEden (step_effect stepped)
      exact le_trans (le_of_eq size) (getElem?_eq_none_iff.mp outside)

theorem initial_entry (found : (VM.initial n).gen.transEdens[id]? = some eden) :
    eden = TransEden.new := by
  have member := mem_of_getElem? found
  simp only [VM.initial, TransNewGeneration.initial, mem_replicate] at member
  exact member.2

/-- An eden that was reset or handed to another transaction does not change when handed in. -/
theorem stale_handIn_unchanged {thread : JavaThread}
    (along : Along (step flags) FreshIDs (VM.initial n) events)
    (reached : run (step flags) (VM.initial n) events = some vm) (valid : thread.transID ≠ -1)
    (cache : thread.transEdenID = id)
    (stale : lastOwner none (history flags id (VM.initial n) events) ≠ some thread.transID) :
    vm.gen.setTransEdenCollectable thread.transEdenID thread.transID
      thread.threadCountsInTransaction = vm.gen := by
  rcases vm.gen.setTransEdenCollectable_cases thread.transEdenID thread.transID
    thread.threadCountsInTransaction with ⟨-, same⟩ | ⟨target, held, index, entry, owns, -⟩
  · exact same
  · obtain rfl : target = id := by omega
    exfalso
    cases found : (VM.initial n).gen.transEdens[target]? with
    | none =>
      have bound : target < vm.gen.maxTransEden := (List.getElem?_eq_some_iff.mp entry).1
      have size : vm.gen.maxTransEden = (VM.initial n).gen.maxTransEden :=
        run_invariant (P := fun vm => vm.gen.maxTransEden = (VM.initial n).gen.maxTransEden)
          (fun _ _ _ same stepped => (effect_maxTransEden (step_effect stepped)).trans same) rfl reached
      have outside : (VM.initial n).gen.maxTransEden ≤ target := getElem?_eq_none_iff.mp found
      omega
    | some old =>
      obtain ⟨eden, entry', carries⟩ := history_lastOwner none along found reached
        (by rw [initial_entry found]; rfl)
      rw [entry] at entry'
      cases some.inj entry'
      cases owner : lastOwner none (history flags target (VM.initial n) events) with
      | none =>
        rw [owner] at carries
        exact valid (owns.symm.trans carries)
      | some t =>
        rw [owner] at carries stale
        exact stale (congrArg some (carries.symm.trans owns))

/-- With fewer than `2 ^ 31` transactions: an ID belongs to one monitored thread for as long as any
holds it, every eden is handed in at most once for each assignment and from state `Assigned`, and a
thread whose eden was reset or handed to another transaction changes nothing. -/
theorem transaction_life_cycle {n : Nat} {events : List Event}
    (few : transactions flags (VM.initial n) events < 2 ^ 31)
    (reached : run (step flags) (VM.initial n) events = some vm) :
    (∀ front back mid, front ++ back = events → run (step flags) (VM.initial n) front = some mid →
      ∀ left right t, t ≠ -1 → Runs mid left t → Runs vm right t →
        left = right ∧ Along (step flags) (fun vm => Runs vm left t) mid back) ∧
    (∀ id, Disciplined false (history flags id (VM.initial n) events)) ∧
    (∀ (ostid : Nat) (thread : JavaThread) (id : Nat), vm.threads ostid = some thread →
      thread.transID ≠ -1 → thread.transEdenID = id →
      lastOwner none (history flags id (VM.initial n) events) ≠ some thread.transID →
      vm.gen.setTransEdenCollectable thread.transEdenID thread.transID
        thread.threadCountsInTransaction = vm.gen) := by
  have along : Along (step flags) FreshIDs (VM.initial n) events := along_freshIDs few
  refine ⟨?_, ?_, ?_⟩
  · rintro front back mid rfl middle left right t valid leftRuns rightRuns
    have room := (initial_guarded few).after middle
    have fresh := along.after middle
    obtain ⟨mid', middle', tail⟩ := run_append_eq_some.mp reached
    rw [middle] at middle'
    cases some.inj middle'
    have throughout := runs_throughout valid fresh room (runs_bounded fresh.head leftRuns) tail rightRuns
    obtain rfl : left = right := fresh.head.single left right t valid leftRuns throughout.head
    exact ⟨rfl, throughout⟩
  · intro id
    cases found : (VM.initial n).gen.transEdens[id]? with
    | none =>
      rw [history_outside found]
      trivial
    | some old =>
      have disciplined := history_disciplined along found
      rw [initial_entry found] at disciplined
      exact disciplined
  · intro ostid thread id entry valid cache stale
    exact stale_handIn_unchanged along reached valid cache stale

private def twoWorkers : List Event :=
  [.threadStart 1 0 true, .threadStart 2 1 false, .threadStart 3 1 false,
    .getTransEdenToAllocate 2, .park 2, .resetTransEdens, .getTransEdenToAllocate 3,
    .commonMemAllocateNoinit 2, .park 3]

private def poolFlags : Flags := ⟨true, false, true, false, false⟩

theorem life_cycle_of_two_workers :
    ∃ vm, run (step poolFlags) (VM.initial 1) twoWorkers = some vm ∧
      history poolFlags 0 (VM.initial 1) twoWorkers =
        [.assigned 0, .collectable .assigned, .reset, .assigned 1, .collectable .assigned] ∧
      Disciplined false (history poolFlags 0 (VM.initial 1) twoWorkers) := by
  obtain ⟨vm, reached⟩ : ∃ vm, run (step poolFlags) (VM.initial 1) twoWorkers = some vm := ⟨_, rfl⟩
  have few : transactions poolFlags (VM.initial 1) twoWorkers < 2 ^ 31 := by decide
  exact ⟨vm, reached, by decide, (transaction_life_cycle few reached).2.1 0⟩

end TransactionIds
