import TransGC.AllocationBuffers

/-!
# Buffers in cleared edens

A collection at a safepoint retires every buffer before it clears an eden. The reclaiming of
trained edens in a running thread relies on the threads of the ended transaction having done so.
The thread that ends it does, but in `Parker::park` only after it has published the eden, and
children of the transaction keep their buffers. The main result says what is missing.
-/
namespace BufferSafety
open EdenTable ThreadEvents TransitionRuns AllocationBuffers Function TransNewGeneration Option List
open AllocationPolicy (Place)

def Collectable (vm : VM) (id : Nat) : Prop :=
  ∃ eden, vm.gen.transEdens[id]? = some eden ∧ eden.state = .collectable

/-- No eden was cleared while a buffer in it was unretired. -/
def ClearedUnused (m : Machine) : Prop :=
  ∀ c ∈ m.clearings, ∀ ostid, c.tlab ostid ≠ some (.transEden c.eden)

/-- The transaction that `e` ends, if any, ends when no other thread has a buffer in its eden. -/
def EndsAlone (flags : Flags) (m : Machine) (ostid : Nat) (e : ThreadEvents.Event) : Prop :=
  ∀ thread, endsBy flags m.vm e = some thread → ∀ id : Nat, thread.transEdenID = id →
    ∀ other, other ≠ ostid → m.tlab other ≠ some (.transEden id)

def Orderly (flags : Flags) (m : Machine) : AllocationBuffers.Event → Prop
  | .park ostid => EndsAlone flags m ostid (.park ostid)
  | .awaitEntry ostid => EndsAlone flags m ostid (.awaitEntry ostid)
  | .threadExit ostid => EndsAlone flags m ostid (.threadExit ostid)
  | .fill ostid inEden _ =>
    inEden = true → ∀ id, m.activity ostid = .filling (some id) →
      ¬Collectable m.vm id ∧ ∀ other, m.activity other ≠ .clearing id
  | .reclaimRound _ => ∀ other, m.activity other ≠ .parking
  | _ => True

variable {id other : Nat} {e : ThreadEvents.Event} {vm : VM}

/-- An eden becomes Collectable only when the thread whose eden it is ends its transaction. -/
theorem collectable_of_step {flags : Flags} {after : VM}
    (stepped : ThreadEvents.step flags vm e = some after) (now : Collectable after id) :
    Collectable vm id ∨ ∃ thread, endsBy flags vm e = some thread ∧ thread.transEdenID = id := by
  obtain ⟨eden, entry, ended⟩ := now
  obtain ⟨old, found, change⟩ := effect_eden (step_effect stepped) entry
  cases change with
  | kept owner state missed => exact .inl ⟨old, found, state ▸ ended⟩
  | settled quiet settles =>
    cases settles with
    | kept owner state => exact .inl ⟨old, found, state ▸ ended⟩
    | collecting owner begun scanned => exact .inl ⟨old, found, begun⟩
    | emptied owner free => cases free.symm.trans ended
  | handedIn ends cache owns owner state => exact .inr ⟨_, ends, cache⟩
  | assigned entry cached quiet valid uncached nobody free owner state =>
    cases state.symm.trans ended

/-! ## The invariant -/

/-- A thread with a buffer in a Collectable eden is in the middle of `Parker::park`, and no eden
about to be cleared has a buffer in it. -/
structure Safe (m : Machine) : Prop where
  held : ∀ ostid id, m.tlab ostid = some (.transEden id) → Collectable m.vm id →
    m.activity ostid = .parking
  apart : ∀ ostid other id, m.tlab ostid = some (.transEden id) → m.activity other ≠ .clearing id
  unused : ClearedUnused m

theorem initial_safe (n : Nat) : Safe (.initial n) where
  held := nofun
  apart := nofun
  unused := nofun

section Operations

variable {m : Machine}

theorem retire_eq_some (ostid : Nat) {place : Place}
    (holds : (m.retire ostid).tlab other = some place) :
    other ≠ ostid ∧ m.tlab other = some place := by
  by_cases here : other = ostid
  · subst here
    cases (m.retire_tlab_self other).symm.trans holds
  · exact ⟨here, (m.retire_tlab_of_ne here).symm.trans holds⟩

theorem Safe.retire (safe : Safe m) (ostid : Nat) : Safe (m.retire ostid) where
  held other id holds := safe.held other id (retire_eq_some ostid holds).2
  apart other reclaimer id holds := safe.apart other reclaimer id (retire_eq_some ostid holds).2
  unused := safe.unused

theorem Safe.ensureParsability (safe : Safe m) : Safe m.ensureParsability where
  held := nofun
  apart := nofun
  unused := safe.unused

/-- A thread turns from `Parker::park`, its buffer retired, or to something else than clearing. -/
theorem Safe.turn (safe : Safe m) {ostid : Nat} {next : Activity}
    (retired : m.activity ostid = .parking → m.tlab ostid = none)
    (harmless : ∀ id, next ≠ .clearing id) : Safe (m.turn ostid next) := by
  refine ⟨fun other id holds ended => ?_, fun other reclaimer id holds clears => ?_, safe.unused⟩
  · have parking := safe.held other id holds ended
    by_cases here : other = ostid
    · subst here
      cases (retired parking).symm.trans holds
    · exact (m.turn_activity_of_ne next here).trans parking
  · by_cases here : reclaimer = ostid
    · subst here
      exact harmless id ((m.turn_activity_self reclaimer next).symm.trans clears)
    · exact safe.apart other reclaimer id holds
        ((m.turn_activity_of_ne next here).symm.trans clears)

theorem Safe.turn_running (safe : Safe m) {ostid : Nat} {next : Activity}
    (idle : m.activity ostid = .running) (harmless : ∀ id, next ≠ .clearing id) :
    Safe (m.turn ostid next) := by
  apply safe.turn _ harmless
  intro parking
  cases idle.symm.trans parking

/-- The threads with a buffer in the eden whose transaction the event ends are all parking. -/
theorem Safe.onVM (safe : Safe m) {flags : Flags} {next : Machine}
    (ends : ∀ thread, endsBy flags m.vm e = some thread → ∀ id : Nat, thread.transEdenID = id →
      ∀ ostid, m.tlab ostid = some (.transEden id) → m.activity ostid = .parking)
    (stepped : m.onVM flags e = some next) : Safe next := by
  obtain ⟨vm, moved, rfl⟩ := map_eq_some_iff.mp stepped
  refine ⟨fun ostid id holds now => ?_, safe.apart, safe.unused⟩
  rcases collectable_of_step moved now with before | ⟨thread, ending, cache⟩
  · exact safe.held ostid id holds before
  · exact ends thread ending id cache ostid holds

theorem Safe.onVM_quiet (safe : Safe m) {flags : Flags} {next : Machine}
    (quiet : endsBy flags m.vm e = none) (stepped : m.onVM flags e = some next) : Safe next := by
  apply safe.onVM _ stepped
  intro thread ends
  cases quiet.symm.trans ends

theorem Safe.logClear (safe : Safe m) (empty : ∀ ostid, m.tlab ostid ≠ some (.transEden id)) :
    Safe (m.logClear id) := by
  refine ⟨safe.held, safe.apart, fun c here => ?_⟩
  rcases mem_cons.mp here with rfl | earlier
  · exact empty
  · exact safe.unused c earlier

end Operations

/-! ## One event -/

section Steps

variable {flags : Flags} {m next : Machine} {ostid : Nat}

theorem whenRunning_eq_some {target : Option Machine}
    (stepped : m.whenRunning ostid target = some next) :
    m.activity ostid = .running ∧ target = some next := by
  unfold Machine.whenRunning at stepped
  split at stepped
  · exact ⟨‹_›, stepped⟩
  · cases stepped

/-- The end of a transaction whose thread has retired its buffer or is in `Parker::park`. -/
theorem Safe.ends (safe : Safe m) (alone : EndsAlone flags m ostid e)
    (own : ∀ id, m.tlab ostid = some (.transEden id) → m.activity ostid = .parking)
    (stepped : m.onVM flags e = some next) : Safe next := by
  apply safe.onVM _ stepped
  intro thread ends id cache other holds
  by_cases here : other = ostid
  · subst here
    exact own id holds
  · exact absurd holds (alone thread ends id cache other here)

theorem park_safe (safe : Safe m) (alone : EndsAlone flags m ostid (.park ostid))
    (stepped : step flags m (.park ostid) = some next) : Safe next := by
  obtain ⟨idle, parks⟩ := whenRunning_eq_some stepped
  obtain ⟨thread, entry, moved⟩ := bind_eq_some_iff.mp parks
  split at moved
  · have turned : Safe (m.turn ostid .parking) := safe.turn_running idle nofun
    exact turned.ends alone (fun _ _ => m.turn_activity_self ostid .parking) moved
  · rename_i ignored
    apply safe.onVM_quiet _ moved
    simp only [endsBy, entry, filter_eq_none_iff]
    grind

theorem await_safe (safe : Safe m) (alone : EndsAlone flags m ostid (.awaitEntry ostid))
    (stepped : step flags m (.awaitEntry ostid) = some next) : Safe next := by
  obtain ⟨idle, awaits⟩ := whenRunning_eq_some stepped
  obtain ⟨thread, entry, moved⟩ := bind_eq_some_iff.mp awaits
  split at moved
  · exact (safe.retire ostid).ends
      (fun ender ends id cache other apart holds =>
        alone ender ends id cache other apart (retire_eq_some ostid holds).2)
      (fun id holds => absurd rfl (retire_eq_some ostid holds).1) moved
  · rename_i ignored
    apply safe.onVM_quiet _ moved
    simp only [endsBy, entry, filter_eq_none_iff]
    grind

theorem exit_safe (safe : Safe m) (alone : EndsAlone flags m ostid (.threadExit ostid))
    (stepped : step flags m (.threadExit ostid) = some next) : Safe next := by
  obtain ⟨idle, moved⟩ := whenRunning_eq_some stepped
  exact (safe.retire ostid).ends
    (fun ender ends id cache other apart holds =>
      alone ender ends id cache other apart (retire_eq_some ostid holds).2)
    (fun id holds => absurd rfl (retire_eq_some ostid holds).1) moved

theorem newTlab_eq_transEden {eden : Option Nat} {inEden inDefNew : Bool}
    (placed : newTlab eden inEden inDefNew = some (.transEden id)) :
    eden = some id ∧ inEden = true := by
  unfold newTlab at placed
  split at placed
  · cases some.inj placed
    exact ⟨rfl, rfl⟩
  · split at placed <;> cases placed

theorem fill_safe (safe : Safe m) {inEden inDefNew : Bool}
    (orderly : Orderly flags m (.fill ostid inEden inDefNew))
    (stepped : step flags m (.fill ostid inEden inDefNew) = some next) : Safe next := by
  simp only [AllocationBuffers.step] at stepped
  split at stepped
  case h_2 => cases stepped
  case h_1 eden chosen =>
    cases stepped
    -- a buffer is an old one of another thread, or the new one
    have split : ∀ other id,
        update m.tlab ostid (newTlab eden inEden inDefNew) other =
            some (.transEden id) →
          (other ≠ ostid ∧ m.tlab other = some (.transEden id)) ∨
            (¬Collectable m.vm id ∧ ∀ reclaimer, m.activity reclaimer ≠ .clearing id) := by
      intro other id holds
      by_cases here : other = ostid
      · subst here
        rw [update_self] at holds
        obtain ⟨rfl, fits⟩ := newTlab_eq_transEden holds
        exact .inr (orderly fits id chosen)
      · rw [update_of_ne here] at holds
        exact .inl ⟨here, holds⟩
    refine ⟨fun other id holds ended => ?_, fun other reclaimer id holds clears => ?_, safe.unused⟩
    · rcases split other id holds with ⟨apart, old⟩ | ⟨open_, -⟩
      · exact (m.turn_activity_of_ne .running apart).trans (safe.held other id old ended)
      · exact absurd ended open_
    · by_cases here : reclaimer = ostid
      · subst here
        cases (m.turn_activity_self reclaimer .running).symm.trans clears
      · have clears := (m.turn_activity_of_ne .running here).symm.trans clears
        rcases split other id holds with ⟨-, old⟩ | ⟨-, spared⟩
        · exact safe.apart other reclaimer id old clears
        · exact spared reclaimer clears

/-- Writing an eden that was not Collectable, or is not any more, makes none Collectable. -/
theorem rewrite_collectable {gen : TransNewGeneration} {eden : TransEden} (next : TransEden)
    (entry : vm.gen.transEdens[id]? = some eden)
    (written : gen.transEdens = vm.gen.transEdens.set id next)
    (keeps : next.state = .collectable → eden.state = .collectable)
    (now : Collectable { vm with gen := gen } other) : Collectable vm other := by
  obtain ⟨found, here, ended⟩ := now
  rw [written] at here
  by_cases target : id = other
  · subst target
    rw [List.getElem?_set_self (List.getElem?_eq_some_iff.mp entry).1] at here
    cases some.inj here
    exact ⟨eden, entry, keeps ended⟩
  · rw [getElem?_set_ne target] at here
    exact ⟨found, here, ended⟩

theorem reset_collectable {count : Int} {eden : TransEden}
    (entry : vm.gen.transEdens[id]? = some eden)
    (now : Collectable { vm with gen := { vm.gen with collectableCount := count }.resetTransEden id } other) :
    Collectable vm other := by
  refine rewrite_collectable eden.reset entry ?_ nofun now
  have found : { vm.gen with collectableCount := count }.getTransEden id = some eden :=
    getTransEden_natCast.trans entry
  simp [resetTransEden, found, setTransEden]

theorem clear_collectable (now : Collectable { vm with gen := vm.gen.clearTransEden id } other) :
    Collectable vm other := by
  cases found : vm.gen.getTransEden id with
  | none =>
    simp only [clearTransEden, found] at now
    exact now
  | some eden =>
    refine rewrite_collectable eden.clear
      (getTransEden_natCast.symm.trans found) ?_ (fun ended => ended) now
    simp [clearTransEden, found]

theorem reclaimRound_safe (safe : Safe m) (none_parks : ∀ other, m.activity other ≠ .parking)
    (stepped : reclaimRound m ostid = some next) : Safe next := by
  -- no thread has a buffer in a Collectable eden, since none is in `Parker::park`
  have free : ∀ id, Collectable m.vm id → ∀ other, m.tlab other ≠ some (.transEden id) :=
    fun id ended other holds => none_parks other (safe.held other id holds ended)
  have idle : m.activity ostid = .parking → m.tlab ostid = none :=
    fun parks => absurd parks (none_parks ostid)
  unfold reclaimRound at stepped
  split at stepped
  case h_1 id examines =>
    split at stepped
    · cases stepped
      exact safe.turn idle nofun
    · rename_i eden entry
      split at stepped
      · rename_i resettable
        cases stepped
        refine ⟨fun other target holds ended => ?_, fun other reclaimer target holds clears => ?_,
          safe.unused⟩
        · exact absurd holds (free target (reset_collectable entry ended) other)
        · by_cases here : reclaimer = ostid
          · subst here
            cases (m.turn_activity_self reclaimer (.clearing id)).symm.trans clears
            exact free id ⟨eden, entry, resettable.1⟩ other holds
          · exact safe.apart other reclaimer target holds
              ((m.turn_activity_of_ne (.clearing id) here).symm.trans clears)
      · cases stepped
        exact safe.turn idle nofun
  case h_2 id clears =>
    cases stepped
    have logged : Safe (m.logClear id) := by
      apply safe.logClear
      intro other holds
      exact safe.apart other ostid id holds clears
    have cleared : Safe { m.logClear id with vm := { m.vm with gen := m.vm.gen.clearTransEden id } } :=
      ⟨fun other target holds ended => logged.held other target holds (clear_collectable ended),
        logged.apart, logged.unused⟩
    exact cleared.turn idle nofun
  case h_3 => cases stepped

theorem collect_safe (safe : Safe m) {gcLockerActive attemptIsSafe failed trainingEnds : Bool}
    {id : Int}
    (stepped : AllocationBuffers.collectTransEden flags m gcLockerActive attemptIsSafe failed
      trainingEnds id = some next) : Safe next := by
  unfold AllocationBuffers.collectTransEden at stepped
  split at stepped
  · cases stepped
    exact safe
  · have retired := safe.ensureParsability
    refine Safe.onVM_quiet ?_ rfl stepped
    split
    · exact retired.logClear nofun
    · exact retired

theorem step_safe {e : AllocationBuffers.Event} (safe : Safe m) (orderly : Orderly flags m e)
    (stepped : step flags m e = some next) : Safe next := by
  cases e with
  | threadStart ostid parent acceptName => exact (safe.retire ostid).onVM_quiet rfl stepped
  | commonMemAllocateNoinit | getTransEdenToAllocate | awaitExit =>
    exact safe.onVM_quiet rfl (whenRunning_eq_some stepped).2
  | clearBeforeAllocation ostid =>
    obtain ⟨thread, -, rfl⟩ := map_eq_some_iff.mp (whenRunning_eq_some stepped).2
    exact safe.retire ostid
  | refill ostid =>
    obtain ⟨idle, refills⟩ := whenRunning_eq_some stepped
    split at refills
    · obtain ⟨thread, -, chosen⟩ := bind_eq_some_iff.mp refills
      obtain ⟨out, -, turned⟩ := bind_eq_some_iff.mp chosen
      obtain ⟨after, moved, rfl⟩ := map_eq_some_iff.mp turned
      have kept := safe.onVM_quiet rfl moved
      obtain ⟨vm, -, rfl⟩ := map_eq_some_iff.mp moved
      exact kept.turn_running idle nofun
    · cases refills
  | fill ostid inEden inDefNew => exact fill_safe safe orderly stepped
  | park ostid => exact park_safe safe orderly stepped
  | parkRetire ostid =>
    simp only [AllocationBuffers.step] at stepped
    split at stepped
    · cases stepped
      exact (safe.retire ostid).turn (fun _ => m.retire_tlab_self ostid) nofun
    · cases stepped
  | awaitEntry ostid => exact await_safe safe orderly stepped
  | threadExit ostid => exact exit_safe safe orderly stepped
  | collectResettableTransEden ostid =>
    obtain ⟨idle, begins⟩ := whenRunning_eq_some stepped
    obtain ⟨thread, -, rfl⟩ := map_eq_some_iff.mp begins
    split
    · exact safe
    · exact safe.turn_running idle nofun
  | reclaimRound ostid => exact reclaimRound_safe safe orderly stepped
  | collectTransEden gcLockerActive attemptIsSafe failed trainingEnds id =>
    exact collect_safe safe stepped
  | resetTransEdens => exact safe.ensureParsability.onVM_quiet rfl stepped

end Steps

/-- If each transaction ends when no other thread has a buffer in its eden, no buffer is taken from
an eden that is Collectable or about to be cleared, and edens are reclaimed while no thread is
between the halves of `Parker::park`, no eden is cleared under an unretired buffer. -/
theorem cleared_unused_of_orderly (flags : Flags) (n : Nat) (es : List AllocationBuffers.Event)
    (orderly : Guarded (AllocationBuffers.step flags) (Orderly flags) (.initial n) es) :
    Along (AllocationBuffers.step flags) ClearedUnused (.initial n) es := by
  have safe : Along (AllocationBuffers.step flags) Safe (.initial n) es :=
    along_of_guarded (fun _ _ _ safe stepped meets => step_safe safe meets stepped)
      (initial_safe n) orderly
  exact safe.mono fun _ safe => safe.unused

/-! ## Small runs -/

/-- The flags under which trained edens are reclaimed without a collection. -/
def reclaiming : Flags where
  threadRunAsTransaction := true
  countChildrenForTrans := true
  useParkUnpark := true
  avoidCollectTrained := true
  pretenure := true

/-- The buffers of thread `ostid` at the clearings of a run, the latest first. -/
def tlabAtClearings (es : List AllocationBuffers.Event) (ostid : Nat) :
    Option (List (Nat × Option Place)) :=
  (run (AllocationBuffers.step reclaiming) (.initial 1) es).map fun m =>
    m.clearings.map fun c => (c.eden, c.tlab ostid)

/-- Thread 2 runs a transaction in the only eden and parks; the eden is collected. -/
def parkedAndCollected : List AllocationBuffers.Event :=
  [.threadStart 1 0 true, .threadStart 2 1 false, .refill 2, .fill 2 true false, .park 2,
    .parkRetire 2, .collectTransEden false true false true 0]

theorem lone_worker_clears_unused :
    ∃ last, run (AllocationBuffers.step reclaiming) (.initial 1) parkedAndCollected = some last ∧
      last.clearings.map Clearing.eden = [0] ∧ ClearedUnused last := by
  have evaluated : (run (AllocationBuffers.step reclaiming) (.initial 1) parkedAndCollected).map
      (fun m => m.clearings.map Clearing.eden) = some [0] := by decide +kernel
  obtain ⟨last, reached, cleared⟩ := map_eq_some_iff.mp evaluated
  refine ⟨last, reached, cleared, (cleared_unused_of_orderly reclaiming 1 _ ?_).last reached⟩
  intro accept stepped
  cases stepped
  refine ⟨trivial, fun started stepped => ?_⟩
  cases stepped
  refine ⟨trivial, fun chosen stepped => ?_⟩
  cases stepped
  refine ⟨trivial, fun filled stepped => ?_⟩
  cases stepped
  refine ⟨fun _ id choice => ?_, fun parked stepped => ?_⟩
  · cases choice
    refine ⟨?_, fun other clears => ?_⟩
    · rintro ⟨eden, entry, ended⟩
      cases entry
      cases ended
    · by_cases own : other = 2
      · subst own
        cases clears
      · cases (update_of_ne own _ _).symm.trans clears
  cases stepped
  refine ⟨fun thread ends id cache other apart holds => ?_, fun retired stepped => ?_⟩
  · have older := (update_of_ne apart _ _).symm.trans holds
    cases (retire_eq_some 1 (retire_eq_some 2 older).2).2
  cases stepped
  refine ⟨trivial, fun collected stepped => ?_⟩
  cases stepped
  exact ⟨trivial, trivial⟩

/-- Its next transaction runs in the eden, which counts as trained now. -/
def trainedTransaction : List AllocationBuffers.Event :=
  parkedAndCollected ++
    [.commonMemAllocateNoinit 2, .refill 2, .fill 2 true false, .threadStart 4 1 false]

/-- Thread 4 reclaims the eden while thread 2 has not yet retired its buffer. -/
def reclaimedWhileParking : List AllocationBuffers.Event :=
  trainedTransaction ++ [.park 2, .collectResettableTransEden 4, .reclaimRound 4, .reclaimRound 4]

/-- Thread 4 reclaims the eden while thread 3, a child of the transaction, has a buffer in it. -/
def reclaimedFromChild : List AllocationBuffers.Event :=
  trainedTransaction ++ [.threadStart 3 2 false, .refill 3, .fill 3 true false, .park 2,
    .parkRetire 2, .collectResettableTransEden 4, .reclaimRound 4, .reclaimRound 4]

theorem eden_cleared_under_buffer :
    tlabAtClearings reclaimedWhileParking 2 = some [(0, some (.transEden 0)), (0, none)] ∧
    tlabAtClearings reclaimedFromChild 2 = some [(0, none), (0, none)] ∧
    tlabAtClearings reclaimedFromChild 3 = some [(0, some (.transEden 0)), (0, none)] := by
  refine ⟨?_, ?_, ?_⟩ <;> decide +kernel

end BufferSafety
