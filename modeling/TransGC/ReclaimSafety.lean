import TransGC.ReclaimSteps

/-!
# When reclaiming is safe

An eden that has been handed to a transaction is not reset or cleared before the transaction
ends, provided that no thread takes eden `j` or begins to reclaim it while another one is between
its check and its `clear` of `j`. Otherwise it may be: the reset publishes the eden as Available
before it is cleared, and two threads can pass the check.
-/
namespace ReclaimSafety
open ReclaimRace ReclaimInvariant ReclaimSteps TransitionRuns Function Option List

variable {vm : VM} {id j : Nat} {a b : Mutator} {after : Option Nat}

/-! ## Objects of the current assignment -/

/-- What a step can do to an eden: while it serves a transaction its objects stay. -/
structure Keeps (before after : Eden) : Prop where
  grows : before.assignments ≤ after.assignments
  serving : ∀ tid, after.serving = some tid → after.assignments = before.assignments →
    before.serving = some tid
  objects : before.serving ≠ none → ∀ object ∈ before.objects, object ∈ after.objects

theorem Keeps.refl (eden : Eden) : Keeps eden eden :=
  ⟨le_refl _, fun _ serves _ => serves, fun _ _ here => here⟩

theorem Keeps.setEden (mem : Memory) (j : Nat) (eden : Eden) (keeps : Keeps (mem.edens j) eden)
    (i : Nat) : Keeps (mem.edens i) ((mem.setEden j eden).edens i) := by
  by_cases same : i = j
  · subst same
    simpa [Memory.setEden] using keeps
  · simpa [Memory.setEden, update_of_ne same] using .refl _

theorem Keeps.of_edens {mem mem' : Memory} (same : mem'.edens = mem.edens) (i : Nat) :
    Keeps (mem.edens i) (mem'.edens i) := by
  rw [same]
  exact .refl _

theorem reclaimStep_keeps (inv : Holds vm) (entry : vm.threads id = some a) {point : ReclaimPoint}
    (pc : a.pc = .reclaim j point) (i : Nat) :
    Keeps (vm.mem.edens i) ((reclaimStep vm.mem j point).1.edens i) := by
  have idle : (vm.mem.edens j).serving = none := (inv.reclaimStage entry pc).idle
  cases point with
  | decreaseCollectable | decreaseAssigned | increaseAvailable =>
    exact .of_edens (changeSharedIntByOne_edens ..) i
  | setState | resetTransID | resetThreadCount | resetOverflowed =>
    apply Keeps.setEden
    exact ⟨le_refl _, fun _ serves _ => serves, fun _ _ here => here⟩
  | clear =>
    apply Keeps.setEden
    exact ⟨le_refl _, fun _ serves _ => serves, fun serves => absurd idle serves⟩

theorem assignStep_keeps (mem : Memory) (j : Nat) (tid : Int) (point : AssignPoint) (i : Nat) :
    Keeps (mem.edens i) ((assignStep mem j tid point).1.edens i) := by
  cases point with
  | setState =>
    apply Keeps.setEden
    exact ⟨Nat.le_succ _, fun _ _ same => absurd same (Nat.succ_ne_self _), fun _ _ here => here⟩
  | setTransID | setTrained =>
    apply Keeps.setEden
    exact ⟨le_refl _, fun _ serves _ => serves, fun _ _ here => here⟩
  | increaseAssigned | decreaseAvailable => exact .of_edens (changeSharedIntByOne_edens ..) i
  | readTrainingDone => exact .refl _

theorem publishStep_keeps (mem : Memory) (j : Nat) (tid count : Int) (point : PublishPoint)
    (i : Nat) : Keeps (mem.edens i) ((publishStep mem j tid count point).1.edens i) := by
  cases point with
  | setState =>
    apply Keeps.setEden
    refine ⟨le_refl _, fun other serves _ => ?_, fun _ _ here => here⟩
    simp only [Eden.setState] at serves
    split at serves
    · cases serves
    · exact serves
  | increaseCollectable seen => exact .of_edens (changeSharedIntByOne_edens ..) i
  | setThreadCount =>
    apply Keeps.setEden
    exact ⟨le_refl _, fun _ serves _ => serves, fun _ _ here => here⟩

theorem act_keeps {config : Config} {mem : Memory} (inv : Holds vm)
    (entry : vm.threads id = some a) (acts : act config vm id a = some (b, mem, after)) (i : Nat) :
    Keeps (vm.mem.edens i) (mem.edens i) := by
  unfold act at acts
  cases pc : a.pc with
  | reclaim j point =>
    rw [pc] at acts
    cases acts
    exact reclaimStep_keeps inv entry pc i
  | assign j point request =>
    rw [pc] at acts
    cases acts
    exact assignStep_keeps vm.mem j a.transID point i
  | publish j point =>
    rw [pc] at acts
    cases acts
    exact publishStep_keeps vm.mem j a.transID a.threadCountsInTransaction point i
  | setOverflowed j =>
    rw [pc] at acts
    cases acts
    apply Keeps.setEden
    exact ⟨le_refl _, fun _ serves _ => serves, fun _ _ here => here⟩
  | swapTop j size seen =>
    rw [pc] at acts
    dsimp only at acts
    split at acts
    · cases acts
      apply Keeps.setEden
      exact ⟨le_refl _, fun _ serves _ => serves, fun _ _ here => mem_cons_of_mem _ here⟩
    · cases acts
      exact .refl _
  | takeLock request =>
    rw [pc] at acts
    dsimp only at acts
    split at acts
    · cases acts
      exact .refl _
    · cases acts
  | _ =>
    rw [pc] at acts
    cases acts <;> exact .refl _

theorem step_keeps {config : Config} {vm' : VM} {e : Event} (inv : Holds vm)
    (stepped : step config vm e = some vm') (i : Nat) : Keeps (vm.mem.edens i) (vm'.mem.edens i) := by
  cases e with
  | act k =>
    obtain ⟨thread, here, moved⟩ := bind_eq_some_iff.mp stepped
    obtain ⟨⟨next, mem, lock⟩, acts, rfl⟩ := map_eq_some_iff.mp moved
    exact act_keeps inv here acts i
  | worker k begins =>
    simp only [step] at stepped
    split at stepped
    · cases stepped
    · split at stepped <;> cases stepped <;> exact .refl _
  | child k parent =>
    simp only [step] at stepped
    split at stepped
    · cases stepped
    · obtain ⟨owner, -, rfl⟩ := map_eq_some_iff.mp stepped
      exact .refl _
  | beginTransaction k =>
    obtain ⟨thread, -, begun⟩ := bind_eq_some_iff.mp stepped
    split at begun <;> cases begun
    exact .refl _
  | call k routine =>
    obtain ⟨thread, -, calls⟩ := bind_eq_some_iff.mp stepped
    split at calls
    · obtain ⟨next, -, rfl⟩ := map_eq_some_iff.mp calls
      exact .refl _
    · cases calls
  | exit k =>
    obtain ⟨thread, -, left⟩ := bind_eq_some_iff.mp stepped
    split at left <;> cases left
    exact .refl _
  | trainingEnds =>
    cases stepped
    exact .refl _

/-- In an orderly run the objects of an eden stay until it is assigned anew or its transaction
ends. -/
theorem run_keeps {config : Config} {vm' : VM} {es : List Event} (inv : Holds vm)
    (orderly : Guarded (step config) Orderly vm es) (reached : run (step config) vm es = some vm')
    (i : Nat) :
    (vm.mem.edens i).assignments ≤ (vm'.mem.edens i).assignments ∧
    ∀ tid, (vm'.mem.edens i).serving = some tid →
      (vm'.mem.edens i).assignments = (vm.mem.edens i).assignments →
        (vm.mem.edens i).serving = some tid ∧
          ∀ object ∈ (vm.mem.edens i).objects, object ∈ (vm'.mem.edens i).objects := by
  induction es generalizing vm with
  | nil =>
    cases some.inj reached
    exact ⟨le_refl _, fun _ serves _ => ⟨serves, fun _ here => here⟩⟩
  | cons e es ih =>
    obtain ⟨middle, head, tail⟩ := run_cons_eq_some.mp reached
    obtain ⟨meets, rest⟩ := orderly middle head
    have keeps := step_keeps inv head i
    obtain ⟨grows, later⟩ := ih (step_holds inv meets head) rest tail
    refine ⟨le_trans keeps.grows grows, fun tid serves same => ?_⟩
    have first := keeps.grows
    obtain ⟨serves', stay'⟩ := later tid serves (by omega)
    have serves'' := keeps.serving tid serves' (by omega)
    refine ⟨serves'', fun object here => stay' object (keeps.objects ?_ object here)⟩
    rw [serves'']
    exact nofun

/-- In an orderly run a thread about to reset or clear an eden finds that it serves no transaction,
and takes it only once after it was published; objects stay as long as the assignment lasts. -/
theorem reclaim_safe_of_orderly (config : Config) (es fs : List Event) (middle last : VM)
    (orderly : Guarded (step config) Orderly (.initialOf config) (es ++ fs))
    (first : run (step config) (.initialOf config) es = some middle)
    (second : run (step config) middle fs = some last) :
    (∀ (id : Nat) (thread : Mutator) (j : Nat) (point : ReclaimPoint),
      middle.threads id = some thread → thread.pc = .reclaim j point →
        (middle.mem.edens j).serving = none ∧
          (point = .setState → (middle.mem.edens j).published = true)) ∧
    ∀ (j : Nat) (tid : Int), (last.mem.edens j).serving = some tid →
      (last.mem.edens j).assignments = (middle.mem.edens j).assignments →
        (middle.mem.edens j).serving = some tid ∧
          ∀ object ∈ (middle.mem.edens j).objects, object ∈ (last.mem.edens j).objects := by
  have inv : Holds middle :=
    ((along_of_guarded (fun _ _ _ inv stepped meets => step_holds inv meets stepped)
      (initial_holds config) orderly).after first).head
  constructor
  · intro id thread j point entry pc
    have stage := inv.reclaimStage entry pc
    exact ⟨stage.idle, fun now => inv.published (stage.due (.inr now))⟩
  · intro j
    exact (run_keeps inv (orderly.after first) second j).2

/-! ## Two schedules -/

def small : Config := ⟨1, 16, true⟩

/-- A thread without competitors runs in good order. -/
theorem solo_orderly (id : Nat) {config : Config} {es : List Event} (only : ∀ k, k ≠ id → vm.threads k = none)
    (mine : ∀ e ∈ es, e = .act id ∨ ∃ routine, e = .call id routine) :
    Guarded (step config) Orderly vm es := by
  induction es generalizing vm with
  | nil => trivial
  | cons e es ih =>
    intro next stepped
    have rest := fun e here => mine e (mem_cons_of_mem _ here)
    rcases mine e mem_cons_self with rfl | ⟨routine, rfl⟩
    · obtain ⟨thread, entry, moved⟩ := bind_eq_some_iff.mp stepped
      obtain ⟨⟨after, mem, lock⟩, -, rfl⟩ := map_eq_some_iff.mp moved
      refine ⟨fun _ _ => ⟨?_, ?_⟩, ih (fun k other => ?_) rest⟩
      · intro j _ _ k c here other
        rw [only k other] at here
        cases here
      · intro j request _ _ k c here other
        rw [only k other] at here
        cases here
      · exact (update_of_ne other _ _).trans (only k other)
    · obtain ⟨thread, entry, calls⟩ := bind_eq_some_iff.mp stepped
      split at calls
      · obtain ⟨after, -, rfl⟩ := map_eq_some_iff.mp calls
        refine ⟨trivial, ih (fun k other => ?_) rest⟩
        exact (update_of_ne other _ _).trans (only k other)
      · cases calls

/-- The request of thread `id` for a block of four words, which takes an eden. -/
def takesEden (id : Nat) : List Event :=
  .call id (.getTransEdenToAllocate (some 4)) :: replicate 16 (.act id)

/-- Transaction 0 takes the only eden. -/
def edenTaken : List Event := .trainingEnds :: .worker 1 true :: takesEden 1

theorem lone_worker_keeps_object :
    ∃ middle last, run (step small) (.initialOf small) edenTaken = some middle ∧
      run (step small) middle [.call 1 .collectResettableTransEden, .act 1] = some last ∧
      (last.mem.edens 0).serving = some 0 ∧
      ∀ object ∈ (middle.mem.edens 0).objects, object ∈ (last.mem.edens 0).objects := by
  have evaluated : (run (step small) (.initialOf small)
      (edenTaken ++ [.call 1 .collectResettableTransEden, .act 1])).map (fun vm =>
        ((vm.mem.edens 0).serving, (vm.mem.edens 0).assignments)) = some (some 0, 1) := by
    decide +kernel
  have evaluated' : (run (step small) (.initialOf small) edenTaken).map
      (fun vm => (vm.mem.edens 0).assignments) = some 1 := by decide +kernel
  obtain ⟨last, reached, result⟩ := map_eq_some_iff.mp evaluated
  obtain ⟨serves, once⟩ := Prod.mk.inj result
  obtain ⟨middle, first, second⟩ := run_append_eq_some.mp reached
  rw [first] at evaluated'
  have orderly : Guarded (step small) Orderly (.initialOf small)
      (edenTaken ++ [.call 1 .collectResettableTransEden, .act 1]) := by
    intro trained stepped
    cases stepped
    refine ⟨trivial, fun next stepped => ?_⟩
    cases stepped
    refine ⟨show (-1 : Int) + 1 < 2 ^ 31 by decide, solo_orderly 1 (fun k other => ?_) ?_⟩
    · exact update_of_ne other _ _
    · simp [takesEden]
  have safe := reclaim_safe_of_orderly small _ _ middle last orderly first second
  exact ⟨middle, last, first, second, serves,
    (safe.2 0 0 serves (once.trans (some.inj evaluated').symm)).2⟩

/-- Transaction 0 takes the only eden and ends. -/
def edenPublished : List Event :=
  edenTaken ++ .call 1 .endTransaction :: replicate 5 (.act 1)

/-- Thread 2 resets the eden and stops before it clears it; thread 3 takes the eden. -/
def takenBeforeClear : List Event :=
  edenPublished ++ .worker 2 true :: .call 2 .collectResettableTransEden ::
    replicate 15 (.act 2) ++ .worker 3 true :: takesEden 3

/-- Threads 2 and 4 both see the eden Collectable; thread 2 reclaims it, thread 3 takes it. -/
def checkedTwice : List Event :=
  edenPublished ++ .worker 2 true :: .call 2 .collectResettableTransEden ::
    replicate 4 (.act 2) ++ .worker 4 true :: .call 4 .collectResettableTransEden ::
    replicate 4 (.act 4) ++ replicate 12 (.act 2) ++ .worker 3 true :: takesEden 3 ++
    replicate 3 (.act 4)

/-- What a schedule leaves of the only eden. -/
def edenAfter (es : List Event) : Option (EdenTable.State × Option Int × List (Nat × Nat)) :=
  (run (step small) (.initialOf small) es).map fun vm =>
    ((vm.mem.edens 0).state, (vm.mem.edens 0).serving, (vm.mem.edens 0).objects)

/-- The block of thread 3 is discarded by the `clear` of thread 2; and thread 4 makes the eden of
the running transaction Available again. -/
theorem eden_reclaimed_from_running_transaction :
    edenAfter takenBeforeClear = some (.assigned, some 2, [(4, 4), (0, 4)]) ∧
    edenAfter (takenBeforeClear ++ [.act 2]) = some (.assigned, some 2, []) ∧
    edenAfter checkedTwice = some (.assigned, some 3, [(0, 4)]) ∧
    edenAfter (checkedTwice ++ [.act 4]) = some (.available, some 3, [(0, 4)]) := by
  refine ⟨?_, ?_, ?_, ?_⟩ <;> decide +kernel

end ReclaimSafety
