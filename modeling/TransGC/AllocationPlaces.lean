import TransGC.AllocationPolicy

/-!
# Where a request is served

A block that `mem_allocate_with_pretenuring` returns lies in a transaction eden only if the
requesting thread came with a valid transaction ID and the request was not to be pretenured,
and then in the eden that is assigned to it. During the call the thread keeps its ID or loses it.
-/
namespace AllocationPlaces
open EdenTable AllocationPolicy PartialTriples Option

def transIDOf : Thread → Int
  | .java thread => thread.transID
  | .vm => -1

/-- The thread still runs transaction `tid` or runs none any more. -/
def Mine (tid : Int) (s : Session) : Prop := transIDOf s.thread = tid ∨ transIDOf s.thread = -1

def Carries (gen : TransNewGeneration) (tid : Int) (id : Nat) : Prop :=
  ∃ eden, gen.transEdens[id]? = some eden ∧ eden.transID = tid ∧ eden.state = .assigned

/-- The thread knows its eden, so that the table is not searched for its transaction ID. -/
def Cached (s : Session) : Prop := ∀ thread, s.thread = .java thread → thread.transEdenID ≠ -1

/-- What holds when an attempt for transaction `tid` has returned. -/
structure Lands (tid : Int) (remote : Bool) (place : Option Place) (s : Session) : Prop where
  mine : Mine tid s
  eden : ∀ id, place = some (.transEden id) →
    remote = true ∧ tid ≠ -1 ∧ Carries s.world.gen tid id

variable {tid : Int} {remote : Bool} {size : Nat} {isTlab : Bool} {flags : Flags}
  {env : Environment}

theorem Lands.null {s : Session} (mine : Mine tid s) : Lands tid remote none s :=
  ⟨mine, fun _ here => nomatch here⟩

theorem Lands.weaken {place : Option Place} {s : Session} (lands : Lands tid false place s) :
    Lands tid remote place s :=
  ⟨lands.mine, fun id here => nomatch (lands.eden id here).1⟩

/-- An attempt that does not look at the transaction edens. -/
def Plain (x : Policy (Option Place)) : Prop :=
  ∀ tid remote, Triple (Mine tid) x (Lands tid remote)

theorem Plain.of_onRooms {f : Session → Option Place × Rooms}
    (elsewhere : ∀ s id, (f s).1 ≠ some (.transEden id)) : Plain (onRooms f) := by
  intro tid remote s place t mine runs
  cases runs
  exact ⟨mine, fun id here => absurd here (elsewhere s id)⟩

theorem plain_null : Plain (pure none) :=
  fun _ _ => .pure fun _ mine => .null mine

theorem modifyWorld_mine (change : World → World) :
    Triple (Mine tid) (modifyWorld change) fun _ => Mine tid := by
  intro s a t mine runs
  cases runs
  exact mine

theorem Plain.firstSome {x y : Policy (Option Place)} (first : Plain x) (rest : Plain y) :
    Plain (firstSome x y) :=
  fun tid remote => .firstSome (first tid remote) ((rest tid remote).pre fun _ => Lands.mine)

theorem Plain.attempt {accepts : Bool} {allocate : Policy (Option Place)}
    (plain : Plain allocate) : Plain (attempt (pure accepts) allocate) := by
  intro tid remote
  cases accepts with
  | true => exact plain tid remote
  | false => exact plain_null tid remote

theorem defNewParAllocate_plain : Plain (defNewParAllocate size) := by
  refine .of_onRooms fun s id => ?_
  dsimp only
  split <;> simp

theorem allocateFromSpace_plain : Plain (allocateFromSpace size) := by
  refine .of_onRooms fun s id => ?_
  dsimp only
  split <;> simp

theorem defNewAllocate_plain : Plain (defNewAllocate size) :=
  defNewParAllocate_plain.firstSome allocateFromSpace_plain

theorem tenuredAllocate_plain : Plain (tenuredAllocate size) := by
  refine .of_onRooms fun s id => ?_
  dsimp only
  split <;> simp

theorem tenuredExpandAndAllocate_plain : Plain (tenuredExpandAndAllocate flags size) :=
  fun tid remote => .bind (modifyWorld_mine _) fun _ => tenuredAllocate_plain tid remote

theorem tryDefNew_plain : Plain (tryDefNew flags size isTlab) := defNewAllocate_plain.attempt

theorem tryTenured_plain : Plain (tryTenured size isTlab) := tenuredAllocate_plain.attempt

/-! ## The attempt in TransNew -/

theorem getTransEdenToAllocate_mine :
    Triple (Mine tid) getTransEdenToAllocate fun eden s =>
      Mine tid s ∧ (eden.isSome = true → Cached s) := by
  intro s eden t mine runs
  obtain ⟨out, returns, same⟩ := map_eq_some_iff.mp runs
  cases same
  have path := TransNewGeneration.getTransEdenToAllocateNolock_path returns
  obtain ⟨world, thread, cleared, operation⟩ := s
  cases path with
  | outside reason => exact ⟨mine, fun here => nomatch here⟩
  | ditched | full => exact ⟨.inr rfl, fun here => nomatch here⟩
  | cached accept valid cache =>
    refine ⟨mine, fun _ thread same => ?_⟩
    cases same
    omega
  | searched | assigned =>
    refine ⟨mine, fun _ thread same => ?_⟩
    cases same
    dsimp only
    omega

/-- The eden that a thread has in its cache is given to it only while it is assigned to the
thread's transaction. -/
theorem getTransEdenToAllocate_carries :
    Triple (fun s => Mine tid s ∧ Cached s) getTransEdenToAllocate fun eden s =>
      Mine tid s ∧ ∀ id, eden = some id → tid ≠ -1 ∧ Carries s.world.gen tid id := by
  intro s eden t ⟨mine, cached⟩ runs
  obtain ⟨out, returns, same⟩ := map_eq_some_iff.mp runs
  cases same
  have path := TransNewGeneration.getTransEdenToAllocateNolock_path returns
  obtain ⟨world, thread, cleared, operation⟩ := s
  cases path with
  | outside reason => exact ⟨mine, fun id here => nomatch here⟩
  | ditched => exact ⟨.inr rfl, fun id here => nomatch here⟩
  | searched accept valid cache | assigned accept valid cache | full accept valid cache =>
    exact absurd cache (cached _ rfl)
  | cached accept valid cache entry owns held =>
    have running := mine.resolve_right valid
    refine ⟨mine, fun id here => ?_⟩
    cases here
    exact ⟨running ▸ valid, _, entry, owns.trans running, held⟩

theorem transNewShouldAllocate_mine :
    Triple (Mine tid) transNewShouldAllocate fun accepts s =>
      Mine tid s ∧ (accepts = true → Cached s) := by
  refine .get fun s => .ite (fun _ => .pure fun _ mine => ⟨mine, fun here => nomatch here⟩) fun _ => ?_
  exact getTransEdenToAllocate_mine.bind fun _ => .pure fun _ found => found

theorem transEdenAllocate_lands {id : Nat} :
    Triple (fun s => Mine tid s ∧ tid ≠ -1 ∧ Carries s.world.gen tid id)
      (transEdenAllocate size id) (Lands tid true) := by
  refine .get fun s => .ite (fun _ => ?_) fun _ => ?_
  · intro first place t ⟨mine, valid, carries⟩ runs
    cases runs
    refine ⟨mine, fun other here => ?_⟩
    cases here
    exact ⟨rfl, valid, carries⟩
  · intro first place t start runs
    cases runs
    exact .null start.1

theorem transNewAllocate_lands :
    Triple (fun s => Mine tid s ∧ Cached s) (transNewAllocate size) (Lands tid true) := by
  refine getTransEdenToAllocate_carries.bind fun eden => ?_
  cases eden with
  | none => exact .pure fun _ start => .null start.1
  | some id =>
    exact transEdenAllocate_lands.pre fun _ start => ⟨start.1, start.2 id rfl⟩

theorem tryTransNew_lands : Triple (Mine tid) (tryTransNew size) (Lands tid true) := by
  refine transNewShouldAllocate_mine.bind fun accepts => ?_
  cases accepts with
  | true =>
    exact transNewAllocate_lands.pre fun _ start => ⟨start.1, start.2 rfl⟩
  | false => exact (plain_null tid true).pre fun _ start => start.1

/-! ## The attempts of the policy -/

theorem firstThenTenured_lands {firstOnly : Bool} {should : Policy Bool}
    {allocate : Policy (Option Place)} {Ready : Session → Prop}
    (asked : Triple (Mine tid) should fun accepts s => Mine tid s ∧ (accepts = true → Ready s))
    (tried : Triple (fun s => Mine tid s ∧ Ready s) allocate (Lands tid remote)) :
    Triple (Mine tid) (firstThenTenured size isTlab firstOnly should allocate)
      (Lands tid remote) := by
  refine asked.bind fun accepts => ?_
  cases accepts with
  | false => exact (tryTenured_plain tid remote).pre fun _ start => start.1
  | true =>
    refine (tried.pre fun _ start => ⟨start.1, start.2 rfl⟩).bind fun place => ?_
    cases place with
    | some place => exact .pure fun _ lands => lands
    | none =>
      exact .ite (fun _ => .pure fun _ lands => lands) fun _ =>
        (tryTenured_plain tid remote).pre fun _ => Lands.mine

theorem attemptTypeBasedAllocation_lands {firstOnly : Bool} :
    Triple (Mine tid) (attemptTypeBasedAllocation flags size isTlab firstOnly remote)
      (Lands tid remote) := by
  cases remote with
  | false =>
    exact firstThenTenured_lands (.pure fun _ mine => ⟨mine, fun _ => mine⟩)
      ((defNewAllocate_plain tid false).pre fun _ start => start.1)
  | true => exact firstThenTenured_lands transNewShouldAllocate_mine transNewAllocate_lands

theorem attemptRound_lands {tryCount : Nat} {firstOnly : Bool} :
    Triple (Mine tid) (attemptRound flags env size isTlab remote tryCount firstOnly)
      (Lands tid remote) := by
  refine .firstSome ?_ ?_
  · cases remote with
    | true => exact tryTransNew_lands
    | false => exact defNewParAllocate_plain.attempt tid false
  · refine Triple.bind ((modifyWorld_mine _).pre fun _ => Lands.mine) ?_
    refine fun _ => .firstSome attemptTypeBasedAllocation_lands ?_
    refine .ite (fun _ => ?_) fun _ => .pure fun _ lands => lands
    exact attemptTypeBasedAllocation_lands.mono (fun _ => Lands.mine) fun _ _ => Lands.weaken

/-! ## The VM operation -/

theorem unlessLocked_mine {collection : Policy Unit}
    (keeps : Triple (Mine tid) collection fun _ => Mine tid) :
    Triple (Mine tid) (unlessLocked collection) fun _ => Mine tid :=
  .get fun _ => .ite (fun _ => modifyWorld_mine _) fun _ => keeps

theorem doTypeBasedCollection_mine {full clearAllSoftRefs : Bool} :
    Triple (Mine tid) (doTypeBasedCollection flags env full clearAllSoftRefs remote)
      fun _ => Mine tid := by
  refine unlessLocked_mine ?_
  intro s a t mine runs
  obtain ⟨gen, -, same⟩ := map_eq_some_iff.mp runs
  cases same
  exact mine

theorem expandLoop_lands : Triple (Mine tid) (expandLoop flags size isTlab) (Lands tid true) := by
  refine .firstSome (tenuredExpandAndAllocate_plain.attempt tid true) ?_
  refine .firstSome (tryTransNew_lands.pre fun _ => Lands.mine) ?_
  exact (tryDefNew_plain tid true).pre fun _ => Lands.mine

theorem attempt_lands_true {firstOnly : Bool} :
    Triple (Mine tid) (attemptTypeBasedAllocation flags size isTlab firstOnly remote)
      (Lands tid true) :=
  attemptTypeBasedAllocation_lands.mono (fun _ mine => mine) fun _ _ lands =>
    ⟨lands.mine, fun id here => ⟨rfl, (lands.eden id here).2⟩⟩

theorem lastResort_lands :
    Triple (Mine tid) (lastResort flags env size isTlab remote) (Lands tid true) :=
  doTypeBasedCollection_mine.bind fun _ => attempt_lands_true

theorem afterFirstCollection_lands :
    Triple (Mine tid) (afterFirstCollection flags env size isTlab remote) (Lands tid true) := by
  refine .firstSome attempt_lands_true ?_
  refine .firstSome (expandLoop_lands.pre fun _ => Lands.mine) ?_
  exact lastResort_lands.pre fun _ => Lands.mine

theorem satisfyFailedTypeBasedAllocation_lands :
    Triple (Mine tid) (satisfyFailedTypeBasedAllocation flags env size isTlab remote)
      (Lands tid true) := by
  refine .get fun s => .ite (fun _ => ?_) fun _ => ?_
  · exact doTypeBasedCollection_mine.bind fun _ => afterFirstCollection_lands
  · refine .firstSome attempt_lands_true ?_
    refine Triple.bind (doTypeBasedCollection_mine.pre fun _ => Lands.mine) ?_
    exact fun _ => afterFirstCollection_lands

/-- The VM thread runs no transaction, so nothing it allocates lies in a transaction eden. -/
theorem asVMThread_lands :
    Triple (Mine tid) (asVMThread (satisfyFailedTypeBasedAllocation flags env size isTlab remote))
      (Lands tid false) := by
  intro s place t mine runs
  obtain ⟨⟨here, after⟩, served, same⟩ := map_eq_some_iff.mp runs
  cases same
  have lands := satisfyFailedTypeBasedAllocation_lands _ _ _
    (show Mine (-1) { s with thread := .vm } from .inl rfl) served
  exact ⟨mine, fun id landed => absurd rfl (lands.eden id landed).2.1⟩

/-! ## The retry loop -/

theorem collectOrRetry_lands {tryCount gcCountBefore : Nat} {again : Policy (Option Place)}
    (later : Triple (Mine tid) again (Lands tid remote)) :
    Triple (Mine tid)
      (collectOrRetry flags env size isTlab remote tryCount gcCountBefore again)
      (Lands tid remote) := by
  refine .ite (fun _ => (modifyWorld_mine _).bind fun _ => ?_) fun _ => later
  have performed : Triple (Mine tid)
      (collectForAllocation flags env size isTlab gcCountBefore remote)
      (fun result s => Lands tid remote (result.getD none) s) := by
    refine .get fun s => .ite (fun _ => .pure fun _ mine => .null mine) fun _ => ?_
    refine Triple.bind (Q := fun _ => Mine tid) ?_ fun _ =>
      asVMThread_lands.bind fun place => .pure fun _ lands => lands.weaken
    intro first a t mine runs
    cases runs
    exact mine
  refine performed.bind fun result => ?_
  cases result with
  | some place => exact .pure fun _ lands => lands
  | none => exact later.pre fun _ => Lands.mine

theorem triggerGC_mine : Triple (Mine tid) (triggerGC flags) fun _ => Mine tid :=
  .ite (fun _ => .pure fun _ mine => mine) fun _ =>
    .ite (fun _ => .failure) fun _ => .get fun _ => .pure fun _ mine => mine

theorem allocateLoop_lands (fuel tryCount : Nat) (firstOnly : Bool) :
    Triple (Mine tid) (allocateLoop flags env size isTlab remote fuel tryCount firstOnly)
      (Lands tid remote) := by
  induction fuel generalizing tryCount firstOnly with
  | zero => exact .failure
  | succ fuel later =>
    refine (modifyWorld_mine _).bind fun _ => triggerGC_mine.bind fun trigger => ?_
    refine .ite (fun _ => collectOrRetry_lands (later _ _)) fun _ => ?_
    refine .firstSome attemptRound_lands ?_
    exact .get fun _ => (collectOrRetry_lands (later _ _)).pre fun _ => Lands.mine

/-! ## The request -/

theorem reclaimTransEdens_mine :
    Triple (Mine tid) (reclaimTransEdens flags env) fun _ => Mine tid := by
  refine .get fun _ => .ite (fun _ => ?_) fun _ => .pure fun _ mine => mine
  refine Triple.bind (Q := fun _ => Mine tid) ?_ fun _ =>
    .ite (fun _ => .pure fun _ mine => mine) fun _ => ?_
  · intro s a t mine runs
    cases runs
    exact mine
  refine .get fun _ => (modifyWorld_mine _).bind fun _ => .get fun _ =>
    .ite (fun _ => .pure fun _ mine => mine) fun _ => unlessLocked_mine ?_
  intro s a t mine runs
  obtain ⟨gen, -, same⟩ := map_eq_some_iff.mp runs
  cases same
  exact mine

theorem chooseRemote_mine {asked : Bool} :
    Triple (Mine tid) (chooseRemote flags env asked)
      fun remote s => Mine tid s ∧ (remote = true → asked = true) := by
  refine .ite (fun valid => ?_) fun _ => .pure fun _ mine => ⟨mine, fun here => nomatch here⟩
  exact reclaimTransEdens_mine.bind fun _ => transNewShouldAllocate_mine.mono
    (fun _ mine => mine) fun _ _ asked => ⟨asked.1, fun _ => valid⟩

theorem memAllocateWithPretenuring_lands {fuel : Nat} {pretenure : Bool} {world : World}
    {thread : Thread} {place : Option Place} {after : Session}
    (returned : memAllocateWithPretenuring flags env size isTlab fuel pretenure
      (.start world thread) = some (place, after)) :
    Lands (transIDOf thread) (Thread.hasValidTransID thread && !pretenure) place after := by
  refine Triple.firstSome (P := Mine (transIDOf thread)) ?_ ?_ _ _ _ (.inl rfl) returned
  · exact .ite (fun _ => tryTenured_plain _ _) fun _ => plain_null _ _
  · refine Triple.bind (chooseRemote_mine.pre fun _ => Lands.mine) ?_
    intro remote s place after start runs
    have lands := allocateLoop_lands fuel 1 true s place after start.1 runs
    exact ⟨lands.mine, fun id here => ⟨start.2 (lands.eden id here).1, (lands.eden id here).2⟩⟩

/-- Memory in TransNew is given only to a thread with a valid transaction ID, for a request not to
be pretenured, in the eden that is assigned to this ID. -/
theorem trans_eden_only_for_own_transaction (flags : Flags) (env : Environment) (size : Nat)
    (isTlab pretenure : Bool) (fuel : Nat) (world : World) (thread : Thread) (place : Place)
    (after : Session)
    (returned : memAllocateWithPretenuring flags env size isTlab fuel pretenure
      (.start world thread) = some (some place, after)) :
    place = .defNew ∨ place = .tenured ∨
      ∃ (requester : JavaThread) (id : Nat) (eden : TransEden),
        place = .transEden id ∧ pretenure = false ∧ thread = .java requester ∧
          requester.transID ≠ -1 ∧ after.world.gen.transEdens[id]? = some eden ∧
          eden.transID = requester.transID ∧ eden.state = .assigned := by
  have lands := memAllocateWithPretenuring_lands returned
  cases place with
  | defNew => exact .inl rfl
  | tenured => exact .inr (.inl rfl)
  | transEden id =>
    obtain ⟨asked, valid, eden, entry, owns, held⟩ := lands.eden id rfl
    obtain ⟨-, kept⟩ := Bool.and_eq_true_iff.mp asked
    cases thread with
    | vm => exact absurd rfl valid
    | java requester =>
      have direct : pretenure = false := by simpa using kept
      exact .inr (.inr ⟨requester, id, eden, rfl, direct, rfl, valid, entry, owns, held⟩)

theorem worker_served_in_own_eden :
    ∃ after, memAllocateWithPretenuring plainFlags quiet 4 false 1 false
        (.start roomy (.java worker)) = some (some (.transEden 0), after) ∧
      (Place.transEden 0 = .defNew ∨ Place.transEden 0 = .tenured ∨
        ∃ (requester : JavaThread) (id : Nat) (eden : TransEden),
          Place.transEden 0 = .transEden id ∧ false = false ∧ Thread.java worker = .java requester ∧
            requester.transID ≠ -1 ∧ after.world.gen.transEdens[id]? = some eden ∧
            eden.transID = requester.transID ∧ eden.state = .assigned) :=
  ⟨_, rfl, trans_eden_only_for_own_transaction plainFlags quiet 4 false false 1 roomy
    (.java worker) (.transEden 0) _ rfl⟩

end AllocationPlaces
