import TransGC.EdenCounters
import TransGC.GenCollections

/-!
# What the collections of the three generations keep account of

Four pieces of bookkeeping that a collection leaves for the next one: the flag that an
incremental collection would fail, the samples of the promotion average, the table of
transaction edens, and the choice of the eden that a triggered collection is for.
-/
namespace CollectionBookkeeping
open EdenTable TransitionRuns GenCollections TransNewGeneration List Option

variable {k : Collectors} {heap next : GenHeap} {call : Call} {after table : TransNewGeneration}

/-! ### The flag -/

/-- Each young generation overwrites the flag, so the last one decides. -/
theorem gcEpilogue_eq (k : Collectors) (heap : GenHeap) (full : Bool) :
    ∃ fromLocal fromRemote, heap.gcEpilogue k full = { heap with
      lastIncrementalCollectionFailed := full && heap.incrementalCollectionWillFail
      incrementalCollectionWillFail := !heap.transNewCollectionAttemptIsSafe k
      defNewShouldAllocateFromSpace := fromLocal
      transNewShouldAllocateFromSpace := fromRemote } := by
  have second : ∀ between : GenHeap, between.transNewGcEpilogue k full = { between with
      incrementalCollectionWillFail := !between.transNewCollectionAttemptIsSafe k
      transNewShouldAllocateFromSpace := full && !between.transNewCollectionAttemptIsSafe k } := by
    intro between
    have same : GenHeap.transNewCollectionAttemptIsSafe k
        { between with transNewShouldAllocateFromSpace := false } =
        between.transNewCollectionAttemptIsSafe k := rfl
    simp only [GenHeap.transNewGcEpilogue, same]
    cases between.transNewCollectionAttemptIsSafe k <;> simp
  rw [GenHeap.gcEpilogue, second, GenHeap.defNewGcEpilogue]
  split
  · exact ⟨_, _, rfl⟩
  · exact ⟨_, _, rfl⟩

/-- The flag is up whenever an attempt is unsafe, exactly if it was not DefNew's alone. -/
theorem epilogue_flag_iff (k : Collectors) (heap : GenHeap) (full : Bool) :
    ((heap.gcEpilogue k full).defNewCollectionAttemptIsSafe k = false ∨
        (heap.gcEpilogue k full).transNewCollectionAttemptIsSafe k = false →
      (heap.gcEpilogue k full).incrementalCollectionWillFail = true) ↔
      (heap.defNewCollectionAttemptIsSafe k = true ∨
        heap.transNewCollectionAttemptIsSafe k = false) := by
  obtain ⟨fromLocal, fromRemote, eq⟩ := gcEpilogue_eq k heap full
  rw [eq]
  change (heap.defNewCollectionAttemptIsSafe k = false ∨
    heap.transNewCollectionAttemptIsSafe k = false →
      (!heap.transNewCollectionAttemptIsSafe k) = true) ↔ _
  cases heap.defNewCollectionAttemptIsSafe k <;>
    cases heap.transNewCollectionAttemptIsSafe k <;> simp

/-- Collectors that promote what they are told to and leave the young spaces empty. -/
private def plainCollectors (promoted : Nat) : Collectors where
  collectGen0First := false
  handlePromotionFailure := true
  avoidCollectTrained := false
  worstCaseEvacuation := id
  paddedAverage := fun samples => samples.getLastD 0
  unsafeMaxAllocNogc := fun _ _ => 0
  scavenge := fun heap _ => ⟨0, 0, 0, promoted, heap.oldCapacity, false⟩
  evacuate := fun heap _ => ⟨promoted, heap.oldCapacity, false⟩
  compact := fun heap _ => ⟨0, 0, 0, heap.oldUsed, heap.oldCapacity⟩

/-- One eden, assigned to transaction 0, and Tenured with room for as many bytes as are given. -/
private def smallHeap (room : Nat) : GenHeap where
  table := ⟨[⟨1, 0, false, false, .assigned, []⟩], 1, 0, 0⟩
  transEdenUsed := [0]
  edenUsed := 200
  fromUsed := 0
  toUsed := 0
  oldUsed := 50000
  oldCapacity := 50000 + room
  oldReserved := 50000 + room
  capacityAtPrologue := 0
  usedAtPrologue := 0
  promotedSamples := [150]
  incrementalCollectionWillFail := false
  lastIncrementalCollectionFailed := false
  defNewShouldAllocateFromSpace := false
  transNewShouldAllocateFromSpace := false

/-- The epilogue of TransNew clears the flag that the epilogue of DefNew has set. -/
theorem transNew_epilogue_clears_flag :
    (GenHeap.gcEpilogue (plainCollectors 0) (smallHeap 100) false).defNewCollectionAttemptIsSafe
        (plainCollectors 0) = false ∧
      (GenHeap.gcEpilogue (plainCollectors 0) (smallHeap 100) false).incrementalCollectionWillFail =
        false := by
  decide +kernel

/-! ### The samples of the promotion average -/

inductive Event where
  | doTypeBasedCollection (call : Call)
  | collectTransEden (gcLockerActive : Bool) (id : Int)

def step (k : Collectors) (debugTypeGenGC : Bool) (heap : GenHeap) : Event → Option GenHeap
  | .doTypeBasedCollection call => some (doTypeBasedCollection k debugTypeGenGC heap call)
  | .collectTransEden gcLockerActive id => collectOneTransEden k heap gcLockerActive id

/-- Whether an event is a scavenge of DefNew. -/
def isScavenge : Event → Bool
  | .doTypeBasedCollection call => !call.gcLockerActive && !call.remote
  | .collectTransEden .. => false

/-- The bytes that the young collection of an event promotes; it starts at level 0 if not full. -/
def promotedBy (k : Collectors) (heap : GenHeap) : Event → Nat
  | .doTypeBasedCollection call =>
    if call.gcLockerActive then 0
    else if call.remote = false then
      (heap.gcPrologue.collectDefNew k call.clearAllSoftRefs).oldUsed - heap.oldUsed
    else if 0 < call.maxLevel.val then (heap.gcPrologue.collectTransNew k).oldUsed - heap.oldUsed
    else 0
  | .collectTransEden gcLockerActive id =>
    if gcLockerActive then 0
    else (heap.gcPrologue.collectTransEden k (collectedIndex heap.table id)).elim 0 fun after =>
      after.oldUsed - heap.oldUsed

def isFull : Event → Bool
  | .doTypeBasedCollection call => call.full
  | .collectTransEden .. => false

/-- A young collection that promotes something adds one sample, of that size. -/
def Sampled (k : Collectors) (debugTypeGenGC : Bool) (heap : GenHeap) (e : Event) : Prop :=
  0 < promotedBy k heap e → ∀ after, step k debugTypeGenGC heap e = some after →
    after.promotedSamples = heap.promotedSamples ++ [promotedBy k heap e]

@[simp] theorem gcEpilogue_promotedSamples (full : Bool) :
    (heap.gcEpilogue k full).promotedSamples = heap.promotedSamples := by
  obtain ⟨fromLocal, fromRemote, eq⟩ := gcEpilogue_eq k heap full
  rw [eq]

@[simp] theorem gcEpilogue_table (full : Bool) : (heap.gcEpilogue k full).table = heap.table := by
  obtain ⟨fromLocal, fromRemote, eq⟩ := gcEpilogue_eq k heap full
  rw [eq]

theorem collectDefNew_promotedSamples (clear : Bool) :
    (heap.collectDefNew k clear).promotedSamples = heap.promotedSamples := by
  unfold GenHeap.collectDefNew
  split <;> rfl

/-- What the evacuation of an eden leaves of the statistics. -/
structure Promotes (before after : GenHeap) : Prop where
  samples : after.promotedSamples = before.promotedSamples
  prologue : after.usedAtPrologue = before.usedAtPrologue
  grows : before.oldUsed ≤ after.oldUsed

theorem collectTransEden_promotes {id : Int} (collects : heap.collectTransEden k id = some next) :
    Promotes heap next := by
  obtain ⟨eden, -, collects⟩ := bind_eq_some_iff.mp collects
  obtain ⟨table, -, rfl⟩ := map_eq_some_iff.mp collects
  split
  · exact ⟨rfl, rfl, le_refl _⟩
  · split
    · exact ⟨rfl, rfl, le_refl _⟩
    · split
      · exact ⟨rfl, rfl, le_refl _⟩
      · split
        · exact ⟨rfl, rfl, Nat.le_add_right _ _⟩
        · exact ⟨rfl, rfl, Nat.le_add_right _ _⟩

theorem collectTransNew_promotes (k : Collectors) (heap : GenHeap) :
    Promotes heap (heap.collectTransNew k) := by
  have unchanged : Promotes heap heap := ⟨rfl, rfl, le_refl _⟩
  unfold GenHeap.collectTransNew
  split
  · rename_i id found
    cases collects : heap.collectTransEden k id with
    | none => exact unchanged
    | some next => exact collectTransEden_promotes collects
  · exact unchanged

/-- The one level that Tenured takes a sample for. -/
theorem updateGcStats_one (promotes : Promotes heap.gcPrologue next) :
    (next.updateGcStats 1 false).promotedSamples =
      heap.promotedSamples ++ [next.oldUsed - heap.oldUsed] := by
  have mark : next.usedAtPrologue = heap.oldUsed := promotes.prologue
  have grows : next.usedAtPrologue ≤ next.oldUsed := mark ▸ promotes.grows
  have samples : next.promotedSamples = heap.promotedSamples := promotes.samples
  simp [GenHeap.updateGcStats, mark ▸ grows, samples, mark]

theorem updateGcStats_of_ne {level : Nat} (other : level ≠ 1) (full : Bool) :
    heap.updateGcStats level full = heap := by
  unfold GenHeap.updateGcStats
  rw [if_neg (by omega)]

theorem collectLevel_promotedSamples {loop : Loop} {level : Nat} (other : level ≠ 1) :
    (collectLevel k call loop level).heap.promotedSamples = loop.heap.promotedSamples := by
  unfold collectLevel
  split
  · dsimp only
    rw [updateGcStats_of_ne other]
    rcases level with - | level
    · exact collectDefNew_promotedSamples call.clearAllSoftRefs
    · rcases level with - | level
      · exact absurd rfl other
      · rfl
  · rfl

theorem startingLevel_of_not_full (young : call.full = false) : startingLevel k call = 0 := by
  simp [startingLevel, young]

theorem foldl_promotedSamples {loop : Loop} {levels : List Nat}
    (others : ∀ level ∈ levels, ¬(level = 1 ∧ call.remote = true)) :
    (levels.foldl (collectLevel k call) loop).heap.promotedSamples =
      loop.heap.promotedSamples := by
  refine foldlRecOn (motive := fun later : Loop =>
    later.heap.promotedSamples = loop.heap.promotedSamples) _ _ rfl ?_
  intro later same level listed
  by_cases other : level = 1
  · subst other
    have idle : ¬ shouldCollect call later 1 = true := fun far => others 1 listed ⟨rfl, far⟩
    rw [collectLevel, if_neg idle]
    exact same
  · exact (collectLevel_promotedSamples other).trans same

/-- A call for a local allocation collects DefNew and adds no sample, whatever it promotes. -/
theorem collectLevels_samples_local (near : call.remote = false) :
    (collectLevels k call heap).heap.promotedSamples = heap.promotedSamples :=
  foldl_promotedSamples fun _ _ both => by simp [near] at both

/-- A call for a remote allocation passes over DefNew, so TransNew is the first to be collected. -/
theorem collectLevels_of_remote (far : call.remote = true) (low : startingLevel k call ≤ 1)
    (high : 1 ≤ call.maxLevel.val) :
    collectLevels k call heap = (range' 2 (call.maxLevel.val - 1)).foldl (collectLevel k call)
      (collectLevel k call ⟨heap.gcPrologue, call.size, startingLevel k call⟩ 1) := by
  have skips (loop : Loop) : collectLevel k call loop 0 = loop := by
    rw [collectLevel, if_neg (by simp [shouldCollect, far])]
  obtain ⟨n, length⟩ : ∃ n, call.maxLevel.val = n + 1 := ⟨call.maxLevel.val - 1, by omega⟩
  have starts : startingLevel k call = 0 ∨ startingLevel k call = 1 := by omega
  rcases starts with start | start
  · rw [collectLevels, start, length]
    change foldl _ _ (0 :: 1 :: range' 2 n) = _
    rw [foldl_cons, foldl_cons, skips]
    rfl
  · rw [collectLevels, start, length]
    rfl

/-- A call for a remote allocation collects TransNew, for which a sample is taken. -/
theorem collectLevels_samples_remote (young : call.full = false) (far : call.remote = true) :
    (collectLevels k call heap).heap.promotedSamples = heap.promotedSamples ++
      if 0 < call.maxLevel.val then [(heap.gcPrologue.collectTransNew k).oldUsed - heap.oldUsed]
      else [] := by
  have start := startingLevel_of_not_full (k := k) young
  split
  · rename_i high
    have due (loop : Loop) : shouldCollect call loop 1 = true := far
    rw [collectLevels_of_remote far (by omega) high,
      foldl_promotedSamples fun level listed => by have := mem_range'_1.mp listed; omega,
      collectLevel, if_pos (due _), young]
    exact updateGcStats_one (collectTransNew_promotes k heap.gcPrologue)
  · rename_i low
    rw [append_nil]
    refine foldl_promotedSamples fun level listed => ?_
    have := mem_range'_1.mp listed
    omega

theorem doTypeBasedCollection_promotedSamples (k : Collectors) (heap : GenHeap) (debug : Bool)
    (unlocked : call.gcLockerActive = false) :
    (doTypeBasedCollection k debug heap call).promotedSamples =
      (collectLevels k call heap).heap.promotedSamples := by
  simp only [doTypeBasedCollection, unlocked, Bool.false_eq_true, if_false,
    gcEpilogue_promotedSamples]
  split <;> rfl

/-- A young collection is sampled exactly if it is not a scavenge of DefNew that promotes. -/
theorem sampled_iff {e : Event} (k : Collectors) (debug : Bool) (heap : GenHeap)
    (young : isFull e = false) :
    Sampled k debug heap e ↔ (isScavenge e = true → promotedBy k heap e = 0) := by
  cases e with
  | doTypeBasedCollection call =>
    cases locked : call.gcLockerActive with
    | true => simp [Sampled, promotedBy, isScavenge, locked]
    | false =>
      have samples := doTypeBasedCollection_promotedSamples k heap debug locked
      cases far : call.remote with
      | false =>
        rw [collectLevels_samples_local far] at samples
        constructor
        · intro sampled _
          by_contra promotes
          have grown := sampled (Nat.pos_of_ne_zero promotes) _ rfl
          rw [samples] at grown
          simp at grown
        · intro idle promotes
          have none_promoted := idle (by simp [isScavenge, locked, far])
          omega
      | true =>
        rw [collectLevels_samples_remote young far] at samples
        refine iff_of_true ?_ (by simp [isScavenge, far])
        intro promotes after steps
        cases steps
        rw [samples]
        simp only [promotedBy, locked, far, Bool.false_eq_true, Bool.true_eq_false, if_false]
          at promotes ⊢
        split
        · rfl
        · rename_i low
          rw [if_neg low] at promotes
          exact absurd promotes (lt_irrefl 0)
  | collectTransEden locked id =>
    refine iff_of_true ?_ (by simp [isScavenge])
    intro promotes after steps
    cases locked with
    | true => simp [promotedBy] at promotes
    | false =>
      obtain ⟨next, collects, rfl⟩ := map_eq_some_iff.mp steps
      simp only [promotedBy, collects, elim_some, Bool.false_eq_true, if_false,
        gcEpilogue_promotedSamples]
      exact updateGcStats_one (collectTransEden_promotes collects)

/-- Without full collections every promotion of a young collection is sampled exactly if no scavenge
of DefNew promotes. -/
theorem promotions_sampled_iff (k : Collectors) (debugTypeGenGC : Bool) (start : GenHeap)
    {events : List Event} (young : ∀ e ∈ events, isFull e = false) :
    Guarded (step k debugTypeGenGC) (Sampled k debugTypeGenGC) start events ↔
      Guarded (step k debugTypeGenGC)
        (fun heap e => isScavenge e = true → promotedBy k heap e = 0) start events := by
  constructor
  · intro sampled
    exact sampled.imp fun heap e among => (sampled_iff k debugTypeGenGC heap (young e among)).mp
  · intro idle
    exact idle.imp fun heap e among => (sampled_iff k debugTypeGenGC heap (young e among)).mpr

private def localCall : Call := ⟨false, false, 4, false, Fin.last 2, false, false⟩

private def remoteCall : Call := ⟨false, false, 4, false, Fin.last 2, true, false⟩

/-- A heap with ample room and a Collectable eden. -/
private def collectableHeap : GenHeap :=
  { smallHeap 40000 with
    table := ⟨[⟨1, 0, false, false, .collectable, []⟩], 1, 0, 1⟩, transEdenUsed := [64] }

/-- The promotion from the eden is sampled. -/
theorem remote_promotion_sampled :
    Guarded (step (plainCollectors 24) false) (Sampled (plainCollectors 24) false) collectableHeap
        [.doTypeBasedCollection remoteCall] ∧
      promotedBy (plainCollectors 24) collectableHeap (.doTypeBasedCollection remoteCall) = 24 := by
  constructor
  · refine (promotions_sampled_iff _ _ _ ?_).mpr ?_
    · simp [isFull, remoteCall]
    · intro next _
      exact ⟨by simp [isScavenge, remoteCall], trivial⟩
  · decide +kernel

/-- A scavenge of DefNew promotes 24 bytes into Tenured, and the samples stay as they were. -/
theorem scavenge_promotes_unsampled :
    promotedBy (plainCollectors 24) (smallHeap 40000) (.doTypeBasedCollection localCall) = 24 ∧
      (step (plainCollectors 24) false (smallHeap 40000) (.doTypeBasedCollection localCall)).map
          GenHeap.promotedSamples = some [150] ∧
      ¬Sampled (plainCollectors 24) false (smallHeap 40000) (.doTypeBasedCollection localCall) := by
  have promotes : promotedBy (plainCollectors 24) (smallHeap 40000)
      (.doTypeBasedCollection localCall) = 24 := by decide +kernel
  refine ⟨promotes, by decide +kernel, ?_⟩
  rw [sampled_iff _ _ _ rfl, promotes]
  simp [isScavenge, localCall]

/-! ### The table of edens with and without the debug flag -/

/-- What the outside sees of the table: states, transaction IDs and counters. -/
def observed (table : TransNewGeneration) : List (State × Int) × Int × Int × Int :=
  (table.transEdens.map fun eden => (eden.state, eden.transID), table.assignedCount,
    table.availableCount, table.collectableCount)

/-- A free eden carries nothing over from its last transaction. -/
def FreeIdle (table : TransNewGeneration) : Prop :=
  ∀ eden ∈ table.transEdens, eden.state = .available →
    eden.transID = -1 ∧ eden.threadCount = 0 ∧ eden.overflowed = false

/-- All edens are free, and the counters say so. -/
structure AllFree (table : TransNewGeneration) : Prop where
  edens : ∀ eden ∈ table.transEdens, eden.state = .available ∧ eden.transID = -1
  assigned : table.assignedCount = 0
  available : table.availableCount = table.maxTransEden
  collectable : table.collectableCount = 0

theorem allFree_iff_observed : AllFree table ↔ observed table.resetTransEdens = observed table := by
  have lists : (table.transEdens.map TransEden.reset).map (fun eden => (eden.state, eden.transID)) =
      table.transEdens.map (fun eden => (eden.state, eden.transID)) ↔
      ∀ eden ∈ table.transEdens, eden.state = .available ∧ eden.transID = -1 := by
    rw [List.map_map, map_inj_left]
    refine forall₂_congr fun eden _ => ?_
    simp [TransEden.reset, eq_comm]
  simp only [observed, resetTransEdens, Prod.mk.injEq, lists]
  constructor
  · rintro ⟨edens, assigned, available, collectable⟩
    exact ⟨edens, assigned.symm, available.symm, collectable.symm⟩
  · rintro ⟨edens, assigned, available, collectable⟩
    exact ⟨edens, assigned.symm, available.symm, collectable.symm⟩

theorem reset_of_allFree (idle : FreeIdle table) (free : AllFree table) :
    table.resetTransEdens = table := by
  have edens : table.transEdens.map TransEden.reset = table.transEdens := by
    refine (map_congr_left fun eden among => ?_).trans (map_id _)
    obtain ⟨state, owner⟩ := free.edens eden among
    obtain ⟨-, count, flag⟩ := idle eden among state
    cases eden
    simp_all [TransEden.reset]
  calc table.resetTransEdens = ⟨table.transEdens, 0, table.maxTransEden, 0⟩ := by
        rw [resetTransEdens, edens]
    _ = ⟨table.transEdens, table.assignedCount, table.availableCount, table.collectableCount⟩ := by
        rw [free.assigned, free.available, free.collectable]

theorem FreeIdle.set {id : Nat} {eden : TransEden} (idle : FreeIdle table)
    (edens : after.transEdens = table.transEdens.set id eden)
    (new : eden.state = .available → eden.transID = -1 ∧ eden.threadCount = 0 ∧ eden.overflowed = false) :
    FreeIdle after := by
  intro other among
  rw [edens] at among
  rcases mem_or_eq_of_mem_set among with before | rfl
  · exact idle other before
  · exact new

theorem table_collect_freeIdle {avoid safe failed : Bool} {index : Int} (idle : FreeIdle table)
    (collects : table.collectTransEden avoid safe failed index = some after) : FreeIdle after := by
  obtain ⟨id, eden, -, -, outcome⟩ := collectTransEden_outcome collects
  cases outcome with
  | notCollectable other => exact idle
  | bailOut ended untrained refused => exact idle
  | shortcut | evacuated => exact idle.set rfl fun _ => ⟨rfl, rfl, rfl⟩
  | promotionFailed ended untrained accepted failure => exact idle.set rfl nofun

theorem eden_step_freeIdle {op : EdenOp} (idle : FreeIdle table)
    (stepped : EdenTable.step table op = some after) : FreeIdle after := by
  cases op with
  | getTransEdenToAllocate found trainingDone current =>
    obtain ⟨out, returns, rfl⟩ := map_eq_some_iff.mp stepped
    cases getTransEdenToAllocateNolock_path returns with
    | assigned accept valid cache search room entry free => exact idle.set rfl nofun
    | _ => exact idle
  | setTransEdenCollectable index transID threadCount =>
    cases some.inj stepped
    rcases table.setTransEdenCollectable_cases index transID threadCount with
      ⟨-, same⟩ | ⟨id, eden, -, -, -, eq⟩
    · rwa [same]
    · rw [eq]
      exact idle.set rfl nofun
  | collectTransEden avoid safe failed index => exact table_collect_freeIdle idle stepped
  | collectResettableTransEden trainingDone pretenure avoid =>
    cases some.inj stepped
    exact collectResettable_keeps idle
      (fun _ _ idle => idle.set rfl fun _ => ⟨rfl, rfl, rfl⟩) _ _ _
  | resetTransEdens =>
    cases some.inj stepped
    intro eden among _
    obtain ⟨old, -, rfl⟩ := mem_map.mp among
    exact ⟨rfl, rfl, rfl⟩

/-- Every table that eden operations lead to from the initial one is of this kind. -/
theorem reachable_freeIdle {maxTransEden : Nat} {ops : List EdenOp}
    (reached : run EdenTable.step (.initial maxTransEden) ops = some table) : FreeIdle table := by
  refine run_invariant (fun _ _ _ => eden_step_freeIdle) ?_ reached
  intro eden among _
  cases eq_of_mem_replicate among
  exact ⟨rfl, rfl, rfl⟩

theorem collectTransEden_table {id : Int} (collects : heap.collectTransEden k id = some next) :
    heap.table.collectTransEden k.avoidCollectTrained (heap.transNewCollectionAttemptIsSafe k)
      (k.evacuate heap id).promotionFailed id = some next.table := by
  obtain ⟨eden, -, collects⟩ := bind_eq_some_iff.mp collects
  obtain ⟨table, settles, rfl⟩ := map_eq_some_iff.mp collects
  repeat' split
  all_goals exact settles

theorem collectTransNew_freeIdle (idle : FreeIdle heap.table) :
    FreeIdle (heap.collectTransNew k).table := by
  unfold GenHeap.collectTransNew
  split
  · rename_i id found
    cases collects : heap.collectTransEden k id with
    | none => exact idle
    | some next => exact table_collect_freeIdle idle (collectTransEden_table collects)
  · exact idle

/-- What a level does to the table: only TransNew makes a difference that can be observed. -/
theorem collectLevel_table (k : Collectors) (call : Call) (loop : Loop) (level : Nat) :
    level = 1 ∧ call.remote = true ∧
        (collectLevel k call loop level).heap.table = (loop.heap.collectTransNew k).table ∨
      ¬(level = 1 ∧ call.remote = true) ∧
        ((collectLevel k call loop level).heap.table = loop.heap.table ∨
          (collectLevel k call loop level).heap.table =
            { loop.heap.table with
              transEdens := loop.heap.table.transEdens.map TransEden.clear }) := by
  have stats (heap : GenHeap) (level : Nat) (full : Bool) :
      (heap.updateGcStats level full).table = heap.table := by
    unfold GenHeap.updateGcStats
    repeat' split
    all_goals rfl
  unfold collectLevel
  split
  · rename_i due
    dsimp only
    rw [stats]
    rcases level with - | - | level
    · refine .inr ⟨by simp, .inl ?_⟩
      change (loop.heap.collectDefNew k call.clearAllSoftRefs).table = _
      unfold GenHeap.collectDefNew
      split <;> rfl
    · exact .inl ⟨rfl, due, rfl⟩
    · exact .inr ⟨by simp, .inr rfl⟩
  · rename_i idle
    refine .inr ⟨?_, .inl rfl⟩
    rintro ⟨rfl, far⟩
    exact idle far

theorem collectLevel_freeIdle {loop : Loop} (level : Nat) (idle : FreeIdle loop.heap.table) :
    FreeIdle (collectLevel k call loop level).heap.table := by
  rcases collectLevel_table k call loop level with ⟨-, -, same⟩ | ⟨-, same | same⟩
  · exact same ▸ collectTransNew_freeIdle idle
  · exact same ▸ idle
  · rw [same]
    intro eden among
    obtain ⟨old, before, rfl⟩ := mem_map.mp among
    exact idle old before

theorem collectLevels_freeIdle (call : Call) (idle : FreeIdle heap.table) :
    FreeIdle (collectLevels k call heap).heap.table := by
  exact foldlRecOn (motive := fun loop : Loop => FreeIdle loop.heap.table) _ _ idle
    fun loop free level _ => collectLevel_freeIdle level free

theorem doTypeBasedCollection_freeIdle (call : Call) (idle : FreeIdle heap.table) :
    FreeIdle (doTypeBasedCollection k false heap call).table := by
  unfold doTypeBasedCollection
  split
  · exact idle
  · simp only [Bool.and_false, Bool.false_eq_true, if_false, gcEpilogue_table]
    exact collectLevels_freeIdle call idle

/-- All edens but the one at `id` are free, and the counters say so. -/
structure FreeBut (table : TransNewGeneration) (id : Nat) (eden : TransEden) : Prop where
  entry : table.transEdens[id]? = some eden
  others : ∀ j other, j ≠ id → table.transEdens[j]? = some other →
    other.state = .available ∧ other.transID = -1
  assigned : table.assignedCount = 1
  available : table.availableCount + 1 = table.maxTransEden
  collectable : table.collectableCount = 1

/-- The eden is ended and emptied: it is trained, or the attempt is safe and no promotion fails. -/
def Empties (k : Collectors) (heap : GenHeap) (id : Nat) (eden : TransEden) : Prop :=
  eden.state = .collectable ∧
    (eden.trained = true ∧ k.avoidCollectTrained = true ∨
      heap.transNewCollectionAttemptIsSafe k = true ∧
        (k.evacuate heap.gcPrologue id).promotionFailed = false)

theorem allFree_emptied_iff {id : Nat} {eden : TransEden}
    (entry : table.transEdens[id]? = some eden) :
    AllFree { table.setTransEden id eden.reset.clear with
      collectableCount := table.collectableCount - 1
      assignedCount := table.assignedCount - 1
      availableCount := table.availableCount + 1 } ↔ FreeBut table id eden := by
  have bound := (List.getElem?_eq_some_iff.mp entry).1
  have length : (table.transEdens.set id eden.reset.clear).length = table.maxTransEden :=
    length_set
  constructor
  · rintro ⟨edens, assigned, available, collectable⟩
    dsimp only [maxTransEden, setTransEden] at edens assigned available collectable
    refine ⟨entry, fun j other different found => ?_, by omega, by omega, by omega⟩
    exact edens other (mem_of_getElem? ((getElem?_set_ne different.symm).trans found))
  · rintro ⟨-, others, assigned, available, collectable⟩
    refine ⟨fun other among => ?_, ?_, ?_, ?_⟩
    · obtain ⟨j, found⟩ := mem_iff_getElem?.mp among
      by_cases same : j = id
      · subst same
        cases (getElem?_set_self bound).symm.trans found
        exact ⟨rfl, rfl⟩
      · exact others j other same ((getElem?_set_ne (Ne.symm same)).symm.trans found)
    all_goals dsimp only [maxTransEden, setTransEden]; omega

theorem firstCollectable_eq_some {id : Nat}
    (search : AllocationPolicy.firstCollectable table = some id) :
    ∃ eden, table.transEdens[id]? = some eden ∧ eden.state = .collectable := by
  obtain ⟨bound, there, -⟩ := findIdx?_eq_some_iff_getElem.mp search
  exact ⟨_, getElem?_eq_getElem bound, by simpa using there⟩

theorem firstCollectable_eq_none (search : AllocationPolicy.firstCollectable table = none)
    {eden : TransEden} (among : eden ∈ table.transEdens) : eden.state ≠ .collectable := by
  simpa using findIdx?_eq_none_iff.mp search eden among

theorem FreeBut.only {i j : Nat} {eden other : TransEden} (but : FreeBut table i eden)
    (entry : table.transEdens[j]? = some other) (busy : other.state ≠ .available) :
    i = j ∧ eden = other := by
  by_cases same : j = i
  · subst same
    exact ⟨rfl, some.inj (but.entry.symm.trans entry)⟩
  · exact absurd (but.others j other same entry).1 busy

theorem not_allFree {id : Nat} {eden : TransEden} (entry : table.transEdens[id]? = some eden)
    (busy : eden.state ≠ .available) : ¬ AllFree table :=
  fun free => busy (free.edens eden (mem_of_getElem? entry)).1

/-- The collection of TransNew leaves all edens free if they were, or if it empties the only eden
that was not. -/
theorem collectTransNew_allFree_iff (k : Collectors) (heap : GenHeap) :
    AllFree (heap.gcPrologue.collectTransNew k).table ↔
      AllFree heap.table ∨ ∃ id eden, FreeBut heap.table id eden ∧ Empties k heap id eden := by
  have table : heap.gcPrologue.table = heap.table := rfl
  rw [GenHeap.collectTransNew, table]
  cases search : AllocationPolicy.firstCollectable heap.table with
  | none =>
    refine (or_iff_left ?_).symm
    rintro ⟨id, eden, but, ended, -⟩
    exact firstCollectable_eq_none search (mem_of_getElem? but.entry) ended
  | some id =>
    obtain ⟨eden, entry, ended⟩ := firstCollectable_eq_some search
    have busy : eden.state ≠ .available := by simp [ended]
    have only : (∃ id eden, FreeBut heap.table id eden ∧ Empties k heap id eden) ↔
        FreeBut heap.table id eden ∧ Empties k heap id eden := by
      refine ⟨?_, fun both => ⟨id, eden, both⟩⟩
      rintro ⟨i, other, but, empties⟩
      obtain ⟨rfl, rfl⟩ := but.only entry busy
      exact ⟨but, empties⟩
    obtain ⟨next, collects⟩ : ∃ next, heap.gcPrologue.collectTransEden k id = some next := by
      simp [GenHeap.collectTransEden, TransNewGeneration.collectTransEden, beginCollect, table,
        getTransEden_natCast, entry]
    rw [only, or_iff_right (not_allFree entry busy)]
    simp only [collects, getD_some]
    obtain ⟨i, other, index, found, outcome⟩ :=
      collectTransEden_outcome (collectTransEden_table collects)
    obtain rfl : id = i := by omega
    cases found.symm.trans entry
    generalize next.table = after at outcome ⊢
    cases outcome with
    | notCollectable idle => exact absurd ended idle
    | shortcut ended trained =>
      exact (allFree_emptied_iff entry).trans (and_iff_left ⟨ended, .inl trained⟩).symm
    | evacuated ended untrained accepted success =>
      exact (allFree_emptied_iff entry).trans (and_iff_left ⟨ended, .inr ⟨accepted, success⟩⟩).symm
    | bailOut ended untrained refused =>
      refine iff_of_false (not_allFree entry busy) ?_
      rintro ⟨-, -, trained | ⟨accepted, -⟩⟩
      · exact untrained trained
      · cases accepted.symm.trans refused
    | promotionFailed ended untrained accepted failure =>
      refine iff_of_false (not_allFree (getElem?_set_self (List.getElem?_eq_some_iff.mp entry).1)
        (by simp)) ?_
      rintro ⟨-, -, trained | ⟨-, success⟩⟩
      · exact untrained trained
      · cases success.symm.trans failure

/-- The call collects TransNew: it is for a remote allocation and does not start at Tenured. -/
def CollectsTransNew (k : Collectors) (call : Call) : Prop :=
  call.remote = true ∧ startingLevel k call ≤ 1 ∧ 1 ≤ call.maxLevel.val

/-- All edens are free before a major collection, or it collects TransNew and empties the only eden
that is not. -/
def MajorFrees (k : Collectors) (heap : GenHeap) (call : Call) : Prop :=
  call.gcLockerActive = false → isComplete k call heap = true →
    AllFree heap.table ∨ CollectsTransNew k call ∧
      ∃ id eden, FreeBut heap.table id eden ∧ Empties k heap id eden

theorem foldl_allFree_iff {loop : Loop} {levels : List Nat}
    (others : ∀ level ∈ levels, ¬(level = 1 ∧ call.remote = true)) :
    AllFree (levels.foldl (collectLevel k call) loop).heap.table ↔ AllFree loop.heap.table := by
  refine foldlRecOn (motive := fun later : Loop =>
    AllFree later.heap.table ↔ AllFree loop.heap.table) _ _ Iff.rfl ?_
  intro later same level listed
  rw [← same]
  rcases collectLevel_table k call later level with ⟨one, far, -⟩ | ⟨-, kept | cleared⟩
  · exact absurd ⟨one, far⟩ (others level listed)
  · rw [kept]
  · rw [cleared, allFree_iff_observed, allFree_iff_observed]
    simp [observed, resetTransEdens, TransEden.clear, TransEden.reset, maxTransEden, Function.comp_def]

theorem collectLevels_allFree_iff (k : Collectors) (call : Call) (heap : GenHeap) :
    AllFree (collectLevels k call heap).heap.table ↔ AllFree heap.table ∨ CollectsTransNew k call ∧
      ∃ id eden, FreeBut heap.table id eden ∧ Empties k heap id eden := by
  by_cases collects : CollectsTransNew k call
  · obtain ⟨far, low, high⟩ := collects
    rw [collectLevels_of_remote far low high,
      foldl_allFree_iff fun level listed => by have := mem_range'_1.mp listed; omega]
    rcases collectLevel_table k call ⟨heap.gcPrologue, call.size, startingLevel k call⟩ 1 with
      ⟨-, -, same⟩ | ⟨near, -⟩
    · rw [same, collectTransNew_allFree_iff, and_iff_right ⟨far, low, high⟩]
    · exact absurd ⟨rfl, far⟩ near
  · rw [or_iff_left fun both => collects both.1]
    refine foldl_allFree_iff fun level listed both => collects ⟨both.2, ?_⟩
    have := mem_range'_1.mp listed
    omega

/-- The flag makes a difference to one collection only through the reset of the table. -/
theorem debug_step_iff (call : Call) (idle : FreeIdle heap.table) :
    (observed (doTypeBasedCollection k true heap call).table =
        observed (doTypeBasedCollection k false heap call).table ↔ MajorFrees k heap call) ∧
      (MajorFrees k heap call →
        doTypeBasedCollection k true heap call = doTypeBasedCollection k false heap call) := by
  have after := doTypeBasedCollection_freeIdle (k := k) call idle
  unfold MajorFrees
  cases locked : call.gcLockerActive with
  | true => simp [doTypeBasedCollection, locked]
  | false =>
    cases complete : isComplete k call heap with
    | false => simp [doTypeBasedCollection, locked, complete]
    | true =>
      simp only [doTypeBasedCollection, locked, complete, Bool.and_true, Bool.and_false, if_true,
        Bool.false_eq_true, if_false, gcEpilogue_table, forall_const] at after ⊢
      rw [← collectLevels_allFree_iff]
      refine ⟨allFree_iff_observed.symm, fun free => ?_⟩
      rw [reset_of_allFree after free]

/-- Two runs, one with the debug flag on and one with it off, agree on the table after every
collection exactly if every major collection finds all edens free, or empties the only one that is
not. -/
theorem debug_runs_agree_iff (k : Collectors) (start : GenHeap) (idle : FreeIdle start.table)
    (calls : List Call) :
    (∀ front, front <+: calls →
      observed (front.foldl (doTypeBasedCollection k true) start).table =
        observed (front.foldl (doTypeBasedCollection k false) start).table) ↔
      Guarded (fun heap call => some (doTypeBasedCollection k false heap call)) (MajorFrees k) start
        calls := by
  induction calls generalizing start with
  | nil =>
    refine iff_of_true ?_ trivial
    rintro front none_left
    rw [prefix_nil.mp none_left]
    rfl
  | cons call calls ih =>
    obtain ⟨seen, same⟩ := debug_step_iff (k := k) call idle
    have rest := ih _ (doTypeBasedCollection_freeIdle (k := k) call idle)
    constructor
    · intro agree next stepped
      cases stepped
      have frees := seen.mp (agree [call] (prefix_append [call] calls))
      refine ⟨frees, rest.mp fun front later => ?_⟩
      have whole := agree (call :: front) (cons_prefix_cons.mpr ⟨rfl, later⟩)
      simpa only [foldl_cons, same frees] using whole
    · intro guarded front early
      obtain ⟨frees, later⟩ := guarded _ rfl
      cases front with
      | nil => rfl
      | cons first front =>
        obtain ⟨rfl, shorter⟩ := cons_prefix_cons.mp early
        simp only [foldl_cons, same frees]
        exact rest.mpr later front shorter

private def fullCall : Call := ⟨true, false, 0, false, Fin.last 2, false, false⟩

/-- A full collection of a heap whose one eden is free. -/
theorem full_collection_of_free_eden :
    observed (doTypeBasedCollection (plainCollectors 0) true
        { smallHeap 40000 with table := .initial 1 } fullCall).table =
      observed (doTypeBasedCollection (plainCollectors 0) false
        { smallHeap 40000 with table := .initial 1 } fullCall).table := by
  have nothing_done : run EdenTable.step (.initial 1) [] = some (.initial 1) := rfl
  have idle : FreeIdle (initial 1) := reachable_freeIdle nothing_done
  have agree := (debug_runs_agree_iff (plainCollectors 0)
    { smallHeap 40000 with table := .initial 1 } idle [fullCall]).mpr
  refine agree ?_ [fullCall] (prefix_refl _)
  intro next _
  exact ⟨fun _ _ => .inl (allFree_iff_observed.mpr (by decide +kernel)), trivial⟩

/-- After a full collection an eden that was assigned is free with the flag, assigned without. -/
theorem debug_flag_frees_assigned_eden :
    observed (doTypeBasedCollection (plainCollectors 0) true (smallHeap 40000) fullCall).table =
        ([(.available, -1)], 0, 1, 0) ∧
      observed (doTypeBasedCollection (plainCollectors 0) false (smallHeap 40000) fullCall).table =
        ([(.assigned, 0)], 1, 0, 0) := by
  decide +kernel

/-! ### The eden that a triggered collection is for -/

/-- Edens are counted as collectable and none as available, and none could be reset. -/
def triggersCollection (table : TransNewGeneration)
    (trainingDone pretenure avoidCollectTrained : Bool) : Bool :=
  table.collectableCount ≥ 1 && table.availableCount < 1 &&
    !(table.collectResettableTransEden trainingDone pretenure avoidCollectTrained).1

/-- TransNew is called with the index of an eden that exists and is Collectable. -/
def ServesCollectable (table : TransNewGeneration) (id : Int) : Prop :=
  ∃ eden, table.getTransEden (collectedIndex table id) = some eden ∧ eden.state = .collectable

theorem servesCollectable_iff (table : TransNewGeneration) (id : Int) :
    ServesCollectable table id ↔ (∃ eden ∈ table.transEdens, eden.state = .collectable) := by
  constructor
  · rintro ⟨eden, found, collectable⟩
    obtain ⟨j, -, entry⟩ := getTransEden_eq_some.mp found
    exact ⟨eden, mem_of_getElem? entry, collectable⟩
  · rintro ⟨eden, among, collectable⟩
    cases search : AllocationPolicy.firstCollectable table with
    | none => exact absurd collectable (firstCollectable_eq_none search among)
    | some j =>
      obtain ⟨first, entry, there⟩ := firstCollectable_eq_some search
      refine ⟨first, ?_, there⟩
      rw [collectedIndex, search, elim_some, getTransEden_natCast, entry]

/-- Exact counters: an eden counted as collectable is there. -/
theorem collectable_of_exact (exact : EdenCounters.CountersExact table)
    (counted : table.collectableCount ≥ 1) :
    ∃ eden ∈ table.transEdens, eden.state = .collectable := by
  have positive : 0 < EdenCounters.count table .collectable := by
    have agrees := exact.collectable
    omega
  obtain ⟨eden, among, collectable⟩ := countP_pos_iff.mp positive
  exact ⟨eden, among, by simpa using collectable⟩

/-- A triggered collection is for a Collectable eden exactly if there is one, and there is one if no
collection so far bailed out or failed a promotion and no transaction ended twice. -/
theorem triggered_collection_serves {maxTransEden : Nat} {ops : List EdenOp}
    {table : TransNewGeneration} {trainingDone pretenure avoidCollectTrained : Bool}
    (reached : run EdenTable.step (.initial maxTransEden) ops = some table)
    (triggers : triggersCollection table trainingDone pretenure avoidCollectTrained = true) :
    (ServesCollectable table 2 ↔ ∃ eden ∈ table.transEdens, eden.state = .collectable) ∧
      (Guarded EdenTable.step EdenCounters.Tame (.initial maxTransEden) ops →
        ServesCollectable table 2) := by
  refine ⟨servesCollectable_iff table 2, fun tame => ?_⟩
  have exact : EdenCounters.CountersExact table :=
    (along_of_guarded (fun _ _ _ before stepped => (EdenCounters.step_exact_iff before stepped).mpr)
      (EdenCounters.initial_exact maxTransEden) tame).last reached
  apply (servesCollectable_iff table 2).mpr
  apply collectable_of_exact exact
  simp only [triggersCollection, Bool.and_eq_true, decide_eq_true_eq] at triggers
  exact triggers.1.1

/-- The first thread's transaction begins in the only eden and ends. -/
private def endedTransaction : List EdenOp :=
  [.getTransEdenToAllocate true false (.java ⟨0, -1, false, true, 1⟩),
    .setTransEdenCollectable 0 0 1]

theorem ended_transaction_served :
    ∃ table, run EdenTable.step (.initial 1) endedTransaction = some table ∧
      triggersCollection table false false false = true ∧ ServesCollectable table 2 := by
  have reached : run EdenTable.step (.initial 1) endedTransaction =
      some ⟨[⟨1, 0, false, false, .collectable, []⟩], 1, 0, 1⟩ := by decide
  have triggers : triggersCollection ⟨[⟨1, 0, false, false, .collectable, []⟩], 1, 0, 1⟩
      false false false = true := by decide
  refine ⟨_, reached, triggers, (triggered_collection_serves reached triggers).1.mpr ?_⟩
  exact ⟨_, mem_singleton.mpr rfl, rfl⟩

/-- After a failed promotion the only eden is counted as collectable but left Collecting; the next
allocation triggers a collection of an eden that does not exist. -/
theorem failed_promotion_misdirects_collection :
    ∃ table, run EdenTable.step (.initial 1)
        (endedTransaction ++ [.collectTransEden false true true 0]) = some table ∧
      triggersCollection table false false false = true ∧
      collectedIndex table 2 = 2 ∧ table.getTransEden 2 = none ∧ ¬ServesCollectable table 2 := by
  refine ⟨⟨[⟨1, 0, false, false, .collecting, []⟩], 1, 0, 1⟩, by decide, by decide, by decide,
    by decide, ?_⟩
  rw [servesCollectable_iff]
  decide

end CollectionBookkeeping
