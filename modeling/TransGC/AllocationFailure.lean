import TransGC.AllocationPolicy

/-!
# When a request fails

`mem_allocate_with_pretenuring` returns null only as the result of its VM operation. That is
conclusive if a full collection that clears the soft references was made for the request, and
afterwards no generation that the requester may use has room. It need not be: with an active GC
locker no collection takes place, and for a transaction thread the last attempt leaves out
DefNew and, being made by the VM thread, the thread's own eden.
-/
namespace AllocationFailure
open EdenTable AllocationPolicy PartialTriples TransNewGeneration List Option

section Room

variable (flags : Flags) (size : Nat) (isTlab : Bool)

def DefNewFits (world : World) : Prop :=
  defNewShouldAllocate flags size isTlab = true ∧
    (size ≤ world.rooms.eden ∨
      (world.rooms.shouldAllocateFromSpace = true ∨
        world.gcLockerActive = true ∧ world.needsGC = true) ∧ size ≤ world.rooms.fromSpace)

def TenuredFits (world : World) : Prop :=
  tenuredShouldAllocate size isTlab = true ∧ size ≤ world.rooms.tenured

/-- Tenured has room, or will have it once it is expanded to its maximum. -/
def TenuredFitsExpanded (world : World) : Prop :=
  tenuredShouldAllocate size isTlab = true ∧
    size ≤ world.rooms.tenured + world.rooms.uncommitted

/-- Eden `id` is assigned to the transaction of `thread`, which TransNew serves. -/
def OwnEden (world : World) (thread : Thread) (id : Nat) : Prop :=
  world.isFoundTCPAcceptThread = true ∧
    ∃ (requester : JavaThread) (eden : TransEden), thread = .java requester ∧
      requester.transID ≠ -1 ∧ world.gen.transEdens[id]? = some eden ∧
      eden.transID = requester.transID ∧ eden.state = .assigned

/-- The request was not refused in vain. -/
structure Exhausted (pretenure : Bool) (s : Session) : Prop where
  cleared : s.cleared = true
  defNew : ¬ DefNewFits flags size isTlab s.world
  tenured : ¬ TenuredFitsExpanded size isTlab s.world
  ownEden : pretenure = false → ∀ id, OwnEden s.world s.thread id →
    s.world.rooms.transEden id < size

/-- There is room without a collection; an attempt to collect makes DefNew's from space
available. -/
def RoomNow (world : World) : Prop :=
  DefNewFits flags size isTlab { world with needsGC := true } ∨
    TenuredFitsExpanded size isTlab world

/-- The condition on the start of the VM operation under which null is conclusive. -/
def Conclusive (pretenure : Bool) (start : Operation) : Prop :=
  if start.world.gcLockerActive = true then RoomNow flags size isTlab start.world
  else
    (start.world.rooms.incrementalCollectionWillFail = true ∧ start.remote = true ∧
      TenuredFits size isTlab start.world) ∨
    ((start.remote = false ∨ defNewShouldAllocate flags size isTlab = false) ∧
      (pretenure = true ∨ flags.debugTypeGenGC = true ∨
        ∀ id, ¬ OwnEden start.world start.thread id))

end Room

variable {flags : Flags} {env : Environment} {size id : Nat} {isTlab remote pretenure : Bool}
  {s t : Session} {thread : Thread} {world : World}

/-! ## Single attempts -/

theorem onRooms_none {f : Session → Option Place × Rooms} :
    onRooms f s = some (none, t) ↔
      (f s).1 = none ∧ { s with world := { s.world with rooms := (f s).2 } } = t := by
  simp [onRooms]

theorem defNewParAllocate_none :
    defNewParAllocate size s = some (none, t) ↔ s = t ∧ ¬ size ≤ s.world.rooms.eden := by
  rw [defNewParAllocate, onRooms_none]
  by_cases fits : size ≤ s.world.rooms.eden <;> simp [fits]

theorem allocateFromSpace_none :
    allocateFromSpace size s = some (none, t) ↔
      s = t ∧ ¬ ((s.world.rooms.shouldAllocateFromSpace = true ∨
        s.world.gcLockerActive = true ∧ s.world.needsGC = true) ∧
          size ≤ s.world.rooms.fromSpace) := by
  rw [allocateFromSpace, onRooms_none]
  dsimp only
  split
  · rename_i fits
    simp [fits]
  · rename_i full
    simp [full]

theorem tenuredAllocate_none :
    tenuredAllocate size s = some (none, t) ↔ s = t ∧ ¬ size ≤ s.world.rooms.tenured := by
  rw [tenuredAllocate, onRooms_none]
  by_cases fits : size ≤ s.world.rooms.tenured <;> simp [fits]

/-- An attempt fails in a generation that does not take the request, or fails there. -/
theorem attempt_none {accepts : Bool} {allocate : Policy (Option Place)} {P : Prop}
    (full : accepts = true → (allocate s = some (none, t) ↔ s = t ∧ P)) :
    attempt (pure accepts) allocate s = some (none, t) ↔ s = t ∧ (accepts = true → P) := by
  cases accepts with
  | false => exact pure_eq_some.trans (by simp)
  | true => exact (full rfl).trans (by simp)

theorem tryDefNew_none :
    tryDefNew flags size isTlab s = some (none, t) ↔
      s = t ∧ ¬ DefNewFits flags size isTlab s.world := by
  have full : defNewAllocate size s = some (none, t) ↔ s = t ∧ _ :=
    firstSome_none.trans (by
      simp only [defNewParAllocate_none, allocateFromSpace_none, and_assoc, exists_eq_left']
      exact and_left_comm)
  simp only [tryDefNew, attempt_none fun _ => full, DefNewFits, not_and, not_or]

theorem tryTenured_none :
    tryTenured size isTlab s = some (none, t) ↔ s = t ∧ ¬ TenuredFits size isTlab s.world := by
  rw [tryTenured, attempt_none fun _ => tenuredAllocate_none, TenuredFits, not_and]

theorem transNewShouldAllocate_vm (vm : s.thread = .vm) :
    transNewShouldAllocate s = some (false, s) := by
  obtain ⟨⟨gen, capacity, found, rest⟩, thread, cleared, operation⟩ := s
  cases vm
  cases found <;> rfl

theorem tryTransNew_vm (vm : s.thread = .vm) : tryTransNew size s = some (none, s) :=
  bind_eq_of_some (transNewShouldAllocate_vm vm)

/-- With more than the first generation to try, the two attempts are made in turn. -/
theorem firstThenTenured_pure {accepts : Bool} {allocate : Policy (Option Place)} :
    firstThenTenured size isTlab false (pure accepts) allocate =
      firstSome (attempt (pure accepts) allocate) (tryTenured size isTlab) := by
  cases accepts with
  | false => rfl
  | true =>
    have full : ∀ s, (firstThenTenured size isTlab false (pure true) allocate) s =
        firstSome allocate (tryTenured size isTlab) s := by
      intro s
      cases tried : allocate s with
      | none =>
        change (allocate s).bind _ = (allocate s).bind _
        rw [tried]
        rfl
      | some result =>
        obtain ⟨place, m⟩ := result
        change (allocate s).bind _ = (allocate s).bind _
        rw [tried]
        cases place <;> rfl
    exact funext full

/-- What is left of the attempt in the generations when the VM thread makes it. -/
theorem attemptTypeBasedAllocation_none (vm : s.thread = .vm) :
    attemptTypeBasedAllocation flags size isTlab false remote s = some (none, t) ↔
      s = t ∧ (remote = false → ¬ DefNewFits flags size isTlab s.world) ∧
        ¬ TenuredFits size isTlab s.world := by
  cases remote with
  | true =>
    have skipped : attemptTypeBasedAllocation flags size isTlab false true s =
        tryTenured size isTlab s := bind_eq_of_some (transNewShouldAllocate_vm vm)
    simp [skipped, tryTenured_none]
  | false =>
    have tried : attemptTypeBasedAllocation flags size isTlab false false =
        firstSome (tryDefNew flags size isTlab) (tryTenured size isTlab) := firstThenTenured_pure
    simp only [tried, firstSome_none, tryDefNew_none, tryTenured_none, forall_true_left, and_assoc,
      exists_eq_left']
    exact and_left_comm

/-! ## Expansion -/

theorem le_pageAlignSizeUp (flags : Flags) (words : Nat) : words ≤ pageAlignSizeUp flags words := by
  have page := flags.pageWords_pos
  have split := Nat.div_add_mod (words + flags.pageWords - 1) flags.pageWords
  have rest := Nat.mod_lt (words + flags.pageWords - 1) page
  rw [mul_comm] at split
  unfold pageAlignSizeUp
  omega

/-- Expansion changes nothing but Tenured, and makes room if the maximum has room. -/
inductive Expanded (size : Nat) (rooms : Rooms) : Rooms → Prop
  | grown {words : Nat} (enough : size ≤ words) (room : words ≤ rooms.uncommitted) :
      Expanded size rooms
        { rooms with uncommitted := rooms.uncommitted - words, tenured := rooms.tenured + words }
  | toReserved : Expanded size rooms (growToReserved rooms)

theorem growBy_eq_some {words : Nat} {rooms grown : Rooms} (grows : growBy words rooms = some grown) :
    words ≤ rooms.uncommitted ∧
      grown = { rooms with
        uncommitted := rooms.uncommitted - words, tenured := rooms.tenured + words } := by
  unfold growBy at grows
  split at grows
  · rename_i room
    exact ⟨room, (some.inj grows).symm⟩
  · cases grows

theorem expand_expanded (flags : Flags) (size : Nat) (rooms : Rooms) :
    Expanded size rooms (expand flags size rooms) := by
  have aligned := le_pageAlignSizeUp flags size
  unfold expand
  dsimp only
  split
  · rename_i grown more
    split at more
    · rename_i larger
      obtain ⟨room, rfl⟩ := growBy_eq_some more
      exact .grown (by omega) room
    · cases more
  · cases grows : growBy (pageAlignSizeUp flags size) rooms with
    | none => exact .toReserved
    | some grown =>
      obtain ⟨room, rfl⟩ := growBy_eq_some grows
      exact .grown aligned room

variable {rooms grown : Rooms}

theorem Expanded.fits_iff (expanded : Expanded size rooms grown) :
    size ≤ grown.tenured ↔ size ≤ rooms.tenured + rooms.uncommitted := by
  cases expanded with
  | grown enough room =>
    dsimp only
    omega
  | toReserved => rfl

theorem Expanded.uncommitted (expanded : Expanded size rooms grown)
    (full : ¬ size ≤ rooms.tenured + rooms.uncommitted) : grown.uncommitted = 0 := by
  cases expanded with
  | grown enough room => omega
  | toReserved => rfl

/-- The session after the loop that expands the generations has found nothing. -/
def expandedSession (flags : Flags) (size : Nat) (isTlab : Bool) (s : Session) : Session :=
  if tenuredShouldAllocate size isTlab = true then
    { s with world := { s.world with rooms := expand flags size s.world.rooms } }
  else s

@[simp] theorem expandedSession_thread :
    (expandedSession flags size isTlab s).thread = s.thread := by
  unfold expandedSession
  split <;> rfl

theorem expandedSession_defNewFits :
    DefNewFits flags size isTlab (expandedSession flags size isTlab s).world ↔
      DefNewFits flags size isTlab s.world := by
  unfold expandedSession
  split
  · have expanded := expand_expanded flags size s.world.rooms
    generalize expand flags size s.world.rooms = grown at expanded
    cases expanded <;> rfl
  · rfl

theorem expandLoop_none (vm : s.thread = .vm) :
    expandLoop flags size isTlab s = some (none, t) ↔
      expandedSession flags size isTlab s = t ∧
        ¬ TenuredFitsExpanded size isTlab s.world ∧ ¬ DefNewFits flags size isTlab s.world := by
  have tenured : ∀ m, attempt (pure (tenuredShouldAllocate size isTlab))
      (tenuredExpandAndAllocate flags size) s = some (none, m) ↔
        expandedSession flags size isTlab s = m ∧ ¬ TenuredFitsExpanded size isTlab s.world := by
    intro m
    cases accepts : tenuredShouldAllocate size isTlab with
    | false =>
      have rejected : attempt (pure false) (tenuredExpandAndAllocate flags size) s =
          some (none, s) := rfl
      simp [rejected, expandedSession, TenuredFitsExpanded, accepts]
    | true =>
      have tried : attempt (pure true) (tenuredExpandAndAllocate flags size) s =
          tenuredAllocate size (expandedSession flags size isTlab s) := by
        rw [expandedSession, if_pos accepts]
        rfl
      rw [tried, tenuredAllocate_none]
      have fits := (expand_expanded flags size s.world.rooms).fits_iff
      simp [expandedSession, accepts, TenuredFitsExpanded, ← fits]
  rw [expandLoop, firstSome_none]
  constructor
  · rintro ⟨m, failed, later⟩
    obtain ⟨rfl, full⟩ := (tenured m).mp failed
    obtain ⟨m, skipped, last⟩ := firstSome_none.mp later
    rw [tryTransNew_vm (by simpa using vm)] at skipped
    cases skipped
    obtain ⟨rfl, defNew⟩ := tryDefNew_none.mp last
    exact ⟨rfl, full, fun fits => defNew (expandedSession_defNewFits.mpr fits)⟩
  · rintro ⟨rfl, full, defNew⟩
    refine ⟨_, (tenured _).mpr ⟨rfl, full⟩, firstSome_none.mpr ⟨_, ?_, tryDefNew_none.mpr ⟨rfl, ?_⟩⟩⟩
    · exact tryTransNew_vm (by simpa using vm)
    · exact fun fits => defNew (expandedSession_defNewFits.mp fits)

/-! ## Collections -/

/-- An eden in use is left alone, unless the table is reset after a major collection. -/
structure LeavesAssigned (flags : Flags) (before after : TransNewGeneration) : Prop where
  settled : TransNewGeneration.TableSettled before after
  kept : flags.debugTypeGenGC = false → ∀ (id : Nat) (eden : TransEden),
    before.transEdens[id]? = some eden → eden.state = .assigned →
      after.transEdens[id]? = some eden

theorem LeavesAssigned.refl (gen : TransNewGeneration) : LeavesAssigned flags gen gen :=
  ⟨.refl gen, fun _ _ _ entry _ => entry⟩

theorem LeavesAssigned.trans {first second third : TransNewGeneration}
    (earlier : LeavesAssigned flags first second) (later : LeavesAssigned flags second third) :
    LeavesAssigned flags first third where
  settled := earlier.settled.trans later.settled
  kept := fun release id eden entry held =>
    later.kept release id eden (earlier.kept release id eden entry held) held

theorem set_leaves_assigned {gen after : TransNewGeneration} {eden next : TransEden}
    (entry : gen.transEdens[id]? = some eden) (ended : eden.state = .collectable)
    (same : after.transEdens = gen.transEdens.set id next)
    (settled : TransNewGeneration.TableSettled gen after) : LeavesAssigned flags gen after := by
  refine ⟨settled, fun _ other found here held => ?_⟩
  have differ : id ≠ other := by
    rintro rfl
    rw [entry] at here
    cases here
    rw [ended] at held
    cases held
  rw [same, getElem?_set_ne differ]
  exact here

theorem collectTransEden_leaves_assigned {gen after : TransNewGeneration} {outcome : Outcome}
    (collected : collectTransEden flags outcome gen id = some after) :
    LeavesAssigned flags gen after := by
  have settled := collectTransEden_settled collected
  obtain ⟨_, eden, -, entry, effect⟩ := collectTransEden_outcome collected
  cases effect with
  | notCollectable idle => exact .refl gen
  | bailOut ended untrained refused => exact ⟨settled, fun _ _ _ here _ => here⟩
  | shortcut ended | evacuated ended => exact set_leaves_assigned entry ended rfl settled
  | promotionFailed ended untrained accepted failure =>
    exact set_leaves_assigned entry ended rfl settled

theorem collectTransNew_runs (outcome : Outcome) (gen : TransNewGeneration) :
    ∃ after, collectTransNew flags outcome gen = some after ∧ LeavesAssigned flags gen after := by
  unfold collectTransNew
  cases first : firstCollectable gen with
  | none => exact ⟨gen, rfl, .refl gen⟩
  | some id =>
    have bound := (findIdx?_eq_some_iff_getElem.mp first).1
    have entry : gen.getTransEden (id : Int) = some gen.transEdens[id] :=
      getTransEden_natCast.trans (getElem?_eq_getElem bound)
    obtain ⟨after, runs⟩ : ∃ after, collectTransEden flags outcome gen id = some after := by
      simp [AllocationPolicy.collectTransEden, TransNewGeneration.collectTransEden, beginCollect, entry]
    exact ⟨after, runs, collectTransEden_leaves_assigned runs⟩

theorem collectLevels_runs (flags : Flags) (outcome : Outcome) (full remote : Bool)
    (gen : TransNewGeneration) :
    ∃ after, collectLevels flags outcome full remote gen = some after ∧
      LeavesAssigned flags gen after ∧
      (full = true → flags.debugTypeGenGC = true →
        ∀ (id : Nat) (eden : TransEden), after.transEdens[id]? = some eden →
          eden.transID = -1) := by
  obtain ⟨middle, runs, leaves⟩ : ∃ middle,
      (if remote = true ∧ startingLevel flags full ≤ 1 then collectTransNew flags outcome gen
        else some gen) = some middle ∧ LeavesAssigned flags gen middle := by
    split
    · exact collectTransNew_runs outcome gen
    · exact ⟨gen, rfl, .refl gen⟩
  refine ⟨if (full || outcome.tenuredShouldCollect) = true ∧ flags.debugTypeGenGC = true then
    middle.resetTransEdens else middle, ?_, ?_, ?_⟩
  · rw [collectLevels, runs]
    rfl
  · split
    · rename_i reset
      refine leaves.trans ⟨middle.resetTransEdens_settled, fun release => ?_⟩
      rw [reset.2] at release
      cases release
    · exact leaves
  · intro major debug id eden entry
    rw [if_pos ⟨by simp [major], debug⟩] at entry
    simp only [resetTransEdens, getElem?_map, map_eq_some_iff] at entry
    obtain ⟨old, -, rfl⟩ := entry
    rfl

/-- How the session can have changed while the VM operation went on. -/
structure Later (flags : Flags) (before after : Session) : Prop where
  thread : after.thread = before.thread
  locker : after.world.gcLockerActive = before.world.gcLockerActive
  found : after.world.isFoundTCPAcceptThread = before.world.isFoundTCPAcceptThread
  operation : after.operation = before.operation
  table : LeavesAssigned flags before.world.gen after.world.gen

theorem Later.trans {first second third : Session} (earlier : Later flags first second)
    (later : Later flags second third) : Later flags first third where
  thread := later.thread.trans earlier.thread
  locker := later.locker.trans earlier.locker
  found := later.found.trans earlier.found
  operation := later.operation.trans earlier.operation
  table := earlier.table.trans later.table

theorem expandedSession_later : Later flags s (expandedSession flags size isTlab s) := by
  unfold expandedSession
  split <;> exact ⟨rfl, rfl, rfl, rfl, .refl _⟩

theorem unlessLocked_eq {collection : Policy Unit} :
    unlessLocked collection s =
      if s.world.gcLockerActive = true then
        some ((), { s with world := { s.world with needsGC := true } })
      else collection s := by
  change (if _ then _ else _ : Policy Unit) s = _
  split <;> rfl

/-- The session after a collection that the GC locker has put off. -/
def waiting (s : Session) : Session := { s with world := { s.world with needsGC := true } }

theorem doTypeBasedCollection_locked (flags : Flags) (env : Environment)
    (full clearAllSoftRefs remote : Bool) (locked : s.world.gcLockerActive = true) :
    doTypeBasedCollection flags env full clearAllSoftRefs remote s = some ((), waiting s) := by
  rw [doTypeBasedCollection, unlessLocked_eq, if_pos locked]
  rfl

theorem doTypeBasedCollection_runs (flags : Flags) (env : Environment)
    (full clearAllSoftRefs remote : Bool) (unlocked : s.world.gcLockerActive = false) :
    ∃ m, doTypeBasedCollection flags env full clearAllSoftRefs remote s = some ((), m) ∧
      Later flags s m ∧
      m.cleared = (s.cleared || (full && clearAllSoftRefs)) ∧
      m.world.rooms = { (env.outcome s.world full clearAllSoftRefs remote).rooms with
        uncommitted := min (env.outcome s.world full clearAllSoftRefs remote).rooms.uncommitted
          s.world.rooms.uncommitted } ∧
      (full = true → flags.debugTypeGenGC = true →
        ∀ (id : Nat) (eden : TransEden), m.world.gen.transEdens[id]? = some eden →
          eden.transID = -1) := by
  obtain ⟨gen, runs, leaves, reset⟩ := collectLevels_runs flags
    (env.outcome s.world full clearAllSoftRefs remote) full remote s.world.gen
  refine ⟨{ s with
      world := s.world.collected (env.outcome s.world full clearAllSoftRefs remote) gen
      cleared := s.cleared || (full && clearAllSoftRefs) },
    ?_, ⟨rfl, rfl, rfl, rfl, leaves⟩, rfl, rfl, reset⟩
  rw [doTypeBasedCollection, unlessLocked_eq, if_neg (by simp [unlocked])]
  dsimp only
  rw [runs]
  rfl

/-! ## The VM operation -/

theorem TenuredFits.expanded (fits : TenuredFits size isTlab world) :
    TenuredFitsExpanded size isTlab world :=
  ⟨fits.1, Nat.le_add_right_of_le fits.2⟩

/-- The first collection of the operation: which one it is, and what was tried before. -/
def FirstCollection (size : Nat) (isTlab remote : Bool) (world : World)
    (full collectRemote : Bool) : Prop :=
  (world.rooms.incrementalCollectionWillFail = false ∨ remote = false) ∧ full = false ∧
      collectRemote = false ∨
    (world.rooms.incrementalCollectionWillFail = true ∧ remote = true) ∧ full = true ∧
      collectRemote = true ∧ ¬ TenuredFits size isTlab world

theorem collection_later {full clearAllSoftRefs : Bool} {m : Session}
    (collected : doTypeBasedCollection flags env full clearAllSoftRefs remote s = some ((), m)) :
    Later flags s m := by
  cases locked : s.world.gcLockerActive with
  | true =>
    rw [doTypeBasedCollection_locked flags env _ _ _ locked] at collected
    cases collected
    exact ⟨rfl, rfl, rfl, rfl, .refl _⟩
  | false =>
    obtain ⟨after, runs, later, -⟩ := doTypeBasedCollection_runs flags env full
      clearAllSoftRefs remote locked
    rw [runs] at collected
    cases collected
    exact later

/-- What follows a collection is still done by the VM thread. -/
theorem after_collection {full clearAllSoftRefs : Bool} {next : Policy (Option Place)}
    {failed : Session → Prop} (vm : s.thread = .vm)
    (fails : ∀ m : Session, m.thread = .vm → (next m = some (none, t) ↔ failed m)) :
    ((do doTypeBasedCollection flags env full clearAllSoftRefs remote; next) :
        Policy (Option Place)) s = some (none, t) ↔
      ∃ m, doTypeBasedCollection flags env full clearAllSoftRefs remote s = some ((), m) ∧
        failed m := by
  rw [bind_eq_some]
  constructor
  · rintro ⟨_, m, collected, rest⟩
    exact ⟨m, collected, (fails m ((collection_later collected).thread.trans vm)).mp rest⟩
  · rintro ⟨m, collected, rest⟩
    exact ⟨(), m, collected, (fails m ((collection_later collected).thread.trans vm)).mpr rest⟩

theorem lastResort_none (vm : s.thread = .vm) :
    lastResort flags env size isTlab remote s = some (none, t) ↔
      doTypeBasedCollection flags env true true remote s = some ((), t) ∧
        (remote = false → ¬ DefNewFits flags size isTlab t.world) ∧
        ¬ TenuredFits size isTlab t.world := by
  rw [lastResort, after_collection vm fun m => attemptTypeBasedAllocation_none]
  constructor
  · rintro ⟨m, collected, rfl, full⟩
    exact ⟨collected, full⟩
  · rintro ⟨collected, full⟩
    exact ⟨t, collected, rfl, full⟩

theorem afterFirstCollection_none (vm : s.thread = .vm) :
    afterFirstCollection flags env size isTlab remote s = some (none, t) ↔
      (¬ TenuredFitsExpanded size isTlab s.world ∧ ¬ DefNewFits flags size isTlab s.world) ∧
        lastResort flags env size isTlab remote (expandedSession flags size isTlab s) =
          some (none, t) := by
  simp only [afterFirstCollection, firstSome_none, attemptTypeBasedAllocation_none vm,
    and_assoc, exists_eq_left', expandLoop_none vm]
  constructor
  · rintro ⟨-, -, later⟩
    exact later
  · intro later
    exact ⟨fun _ => later.2.1, fun fits => later.1 fits.expanded, later⟩

theorem satisfyFailedTypeBasedAllocation_none (vm : s.thread = .vm) :
    satisfyFailedTypeBasedAllocation flags env size isTlab remote s = some (none, t) ↔
      ∃ full collectRemote m, FirstCollection size isTlab remote s.world full collectRemote ∧
        doTypeBasedCollection flags env full false collectRemote s = some ((), m) ∧
        (¬ TenuredFitsExpanded size isTlab m.world ∧ ¬ DefNewFits flags size isTlab m.world) ∧
        lastResort flags env size isTlab remote (expandedSession flags size isTlab m) =
          some (none, t) := by
  change (if _ then _ else _ : Policy (Option Place)) s = some (none, t) ↔ _
  split
  · rename_i young
    rw [after_collection vm fun m => afterFirstCollection_none]
    constructor
    · rintro ⟨m, failed⟩
      exact ⟨false, false, m, .inl ⟨young, rfl, rfl⟩, failed⟩
    · rintro ⟨full, collectRemote, m, first | first, failed⟩
      · obtain ⟨-, rfl, rfl⟩ := first
        exact ⟨m, failed⟩
      · simp [first.1] at young
  · rename_i old
    obtain ⟨willFail, rfl⟩ : s.world.rooms.incrementalCollectionWillFail = true ∧ remote = true := by
      simpa using old
    simp only [firstSome_none, attemptTypeBasedAllocation_none vm, and_assoc, exists_eq_left',
      after_collection vm fun m => afterFirstCollection_none]
    constructor
    · rintro ⟨-, noRoom, m, failed⟩
      exact ⟨true, true, m, .inr ⟨⟨willFail, rfl⟩, rfl, rfl, noRoom⟩, failed⟩
    · rintro ⟨full, collectRemote, m, first | first, failed⟩
      · exact absurd first.1 old
      · obtain ⟨-, rfl, rfl, noRoom⟩ := first
        exact ⟨nofun, noRoom, m, failed⟩

theorem failed_later (vm : s.thread = .vm)
    (failed : satisfyFailedTypeBasedAllocation flags env size isTlab remote s = some (none, t)) :
    Later flags s t := by
  obtain ⟨full, collectRemote, m, -, first, -, last⟩ :=
    (satisfyFailedTypeBasedAllocation_none vm).mp failed
  have expanded : Later flags s (expandedSession flags size isTlab m) :=
    (collection_later first).trans expandedSession_later
  obtain ⟨second, -⟩ := (lastResort_none (expanded.thread.trans vm)).mp last
  exact expanded.trans (collection_later second)

/-! ### With an active GC locker -/

theorem expandedSession_tenuredFits
    (full : ¬ TenuredFitsExpanded size isTlab s.world) :
    ¬ TenuredFits size isTlab (expandedSession flags size isTlab s).world := by
  intro fits
  apply full
  refine ⟨fits.1, ?_⟩
  have expanded := expand_expanded flags size s.world.rooms
  have room := fits.2
  rw [expandedSession, if_pos fits.1] at room
  exact expanded.fits_iff.mp room

theorem waiting_expandedSession :
    waiting (expandedSession flags size isTlab (waiting s)) =
      expandedSession flags size isTlab (waiting s) := by
  unfold expandedSession
  split <;> rfl

/-- With an active locker nothing is collected, and the operation fails if there is no room. -/
theorem locked_none_iff (vm : s.thread = .vm) (locked : s.world.gcLockerActive = true) :
    (∃ t, satisfyFailedTypeBasedAllocation flags env size isTlab remote s = some (none, t)) ↔
      ¬ RoomNow flags size isTlab s.world := by
  constructor
  · rintro ⟨t, failed⟩
    obtain ⟨full, collectRemote, m, first, collected, noRoom, -⟩ :=
      (satisfyFailedTypeBasedAllocation_none vm).mp failed
    rw [doTypeBasedCollection_locked flags env _ _ _ locked] at collected
    cases collected
    rintro (fits | fits)
    · exact noRoom.2 fits
    · exact noRoom.1 fits
  · intro noRoom
    have tenured : ¬ TenuredFitsExpanded size isTlab s.world := fun fits => noRoom (.inr fits)
    have defNew : ¬ DefNewFits flags size isTlab { s.world with needsGC := true } :=
      fun fits => noRoom (.inl fits)
    obtain ⟨full, collectRemote, first⟩ : ∃ full collectRemote,
        FirstCollection size isTlab remote s.world full collectRemote := by
      by_cases young : s.world.rooms.incrementalCollectionWillFail = false ∨ remote = false
      · exact ⟨false, false, .inl ⟨young, rfl, rfl⟩⟩
      · exact ⟨true, true, .inr ⟨by simpa using young, rfl, rfl, fun fits => tenured fits.expanded⟩⟩
    have last := doTypeBasedCollection_locked flags env true true remote
      (s := expandedSession flags size isTlab (waiting s)) (expandedSession_later.locker.trans locked)
    refine ⟨_, (satisfyFailedTypeBasedAllocation_none vm).mpr ⟨full, collectRemote, waiting s, first,
      doTypeBasedCollection_locked flags env _ _ _ locked, ⟨tenured, defNew⟩,
      (lastResort_none ?_).mpr ⟨last, ?_, ?_⟩⟩⟩
    · exact expandedSession_thread.trans vm
    · intro _ fits
      rw [waiting_expandedSession] at fits
      exact defNew (expandedSession_defNewFits.mp fits)
    · exact expandedSession_tenuredFits (s := waiting s) tenured

theorem locked_not_cleared (vm : s.thread = .vm) (locked : s.world.gcLockerActive = true)
    (failed : satisfyFailedTypeBasedAllocation flags env size isTlab remote s = some (none, t)) :
    t.cleared = s.cleared := by
  obtain ⟨full, collectRemote, m, -, collected, -, last⟩ :=
    (satisfyFailedTypeBasedAllocation_none vm).mp failed
  have vm' := (collection_later collected).thread.trans vm
  rw [doTypeBasedCollection_locked flags env _ _ _ locked] at collected
  cases collected
  obtain ⟨collected, -⟩ := (lastResort_none (by simpa using vm')).mp last
  rw [doTypeBasedCollection_locked flags env _ _ _ (s := expandedSession flags size isTlab (waiting s))
    (expandedSession_later.locker.trans locked)] at collected
  cases collected
  unfold expandedSession
  split <;> rfl

/-! ### Without an active GC locker -/

theorem OwnEden.before (later : Later flags s t) (own : OwnEden t.world thread id) :
    OwnEden s.world thread id := by
  obtain ⟨found, requester, eden, runs, valid, entry, owner, held⟩ := own
  obtain ⟨old, entry', settled⟩ := later.table.settled.entry id eden entry
  refine ⟨later.found ▸ found, requester, old, runs, valid, entry', ?_⟩
  cases settled with
  | kept owner' state => exact ⟨owner'.symm.trans owner, state.symm.trans held⟩
  | collecting owner' ended scanned =>
    rw [scanned] at held
    cases held
  | emptied owner' free =>
    rw [free] at held
    cases held

theorem OwnEden.after (release : flags.debugTypeGenGC = false) (later : Later flags s t)
    (own : OwnEden s.world thread id) : OwnEden t.world thread id := by
  obtain ⟨found, requester, eden, runs, valid, entry, owner, held⟩ := own
  exact ⟨later.found.trans found, requester, eden, runs, valid,
    later.table.kept release id eden entry held, owner, held⟩

/-- What a failed operation leaves behind, apart from the two attempts it does not make. -/
structure Refused (flags : Flags) (size : Nat) (isTlab remote : Bool) (before after : Session) :
    Prop where
  later : Later flags before after
  cleared : after.cleared = true
  tenured : ¬ TenuredFitsExpanded size isTlab after.world
  defNew : remote = false → ¬ DefNewFits flags size isTlab after.world
  reset : flags.debugTypeGenGC = true → ∀ (id : Nat) (eden : TransEden),
    after.world.gen.transEdens[id]? = some eden → eden.transID = -1

theorem unlocked_refused (vm : s.thread = .vm) (unlocked : s.world.gcLockerActive = false)
    (failed : satisfyFailedTypeBasedAllocation flags env size isTlab remote s = some (none, t)) :
    Refused flags size isTlab remote s t := by
  obtain ⟨full, collectRemote, m, -, collected, noRoom, last⟩ :=
    (satisfyFailedTypeBasedAllocation_none vm).mp failed
  obtain ⟨m', runs, first, -⟩ := doTypeBasedCollection_runs flags env full false collectRemote unlocked
  rw [runs] at collected
  cases collected
  have expanded : Later flags s (expandedSession flags size isTlab m) :=
    first.trans expandedSession_later
  obtain ⟨collected, defNew, tenured⟩ := (lastResort_none (expanded.thread.trans vm)).mp last
  obtain ⟨t', runs', second, cleared, rooms, reset⟩ := doTypeBasedCollection_runs flags env true true
    remote (expanded.locker.trans unlocked)
  rw [runs'] at collected
  cases collected
  refine ⟨expanded.trans second, by simpa using cleared, ?_, defNew, reset rfl⟩
  -- Tenured was expanded to its maximum before this collection and does not shrink.
  rintro ⟨accepts, room⟩
  have maximal : (expandedSession flags size isTlab m).world.rooms.uncommitted = 0 := by
    rw [expandedSession, if_pos accepts]
    exact (expand_expanded flags size m.world.rooms).uncommitted fun room => noRoom.1 ⟨accepts, room⟩
  have shrunk : t.world.rooms.uncommitted = 0 := by
    rw [rooms, maximal]
    exact Nat.min_zero _
  exact tenured ⟨accepts, by omega⟩

/-- A heap with room in DefNew's eden and in the transaction edens at most. -/
def scarce (eden transEden : Nat) : Rooms where
  eden := eden
  fromSpace := 0
  shouldAllocateFromSpace := false
  transEden := fun _ => transEden
  tenured := 0
  uncommitted := 0
  incrementalCollectionWillFail := false

/-- The outcomes that leave room only where the operation does not look. -/
def hidden (size : Nat) (remote : Bool) (env : Environment) : Environment :=
  { env with
    outcome := fun _ _ clearAllSoftRefs _ =>
      { rooms := scarce (if remote && clearAllSoftRefs then size else 0) size
        tenuredShouldCollect := false
        collectionAttemptIsSafe := true
        promotionFailed := false } }

theorem hidden_collection (flags : Flags) (env : Environment) (size : Nat)
    (full clearAllSoftRefs remote collectRemote : Bool)
    (unlocked : s.world.gcLockerActive = false) :
    ∃ m, doTypeBasedCollection flags (hidden size remote env) full clearAllSoftRefs collectRemote s =
        some ((), m) ∧ Later flags s m ∧
      m.world.rooms = scarce (if remote && clearAllSoftRefs then size else 0) size := by
  obtain ⟨m, runs, later, -, rooms, -⟩ := doTypeBasedCollection_runs flags (hidden size remote env)
    full clearAllSoftRefs collectRemote unlocked
  refine ⟨m, runs, later, rooms.trans ?_⟩
  simp [hidden, scarce]

theorem pos_of_defNewShouldAllocate (accepts : defNewShouldAllocate flags size isTlab = true) :
    0 < size := by
  simp only [defNewShouldAllocate, Bool.and_eq_true, decide_eq_true_eq] at accepts
  exact accepts.1.2

theorem pos_of_tenuredShouldAllocate (accepts : tenuredShouldAllocate size isTlab = true) :
    0 < size := by
  simp only [tenuredShouldAllocate, Bool.and_eq_true, decide_eq_true_eq] at accepts
  exact accepts.1.2

theorem scarce_defNew {transEden : Nat} (rooms : world.rooms = scarce 0 transEden) :
    ¬ DefNewFits flags size isTlab world := by
  rintro ⟨accepts, room⟩
  have := pos_of_defNewShouldAllocate accepts
  simp only [rooms, scarce] at room
  omega

theorem scarce_tenured {eden transEden : Nat} (rooms : world.rooms = scarce eden transEden) :
    ¬ TenuredFitsExpanded size isTlab world := by
  rintro ⟨accepts, room⟩
  have := pos_of_tenuredShouldAllocate accepts
  simp only [rooms, scarce] at room
  omega

/-- Unless it is served at once, a request can fail with all the room where nobody looks. -/
theorem hidden_none (env : Environment) (vm : s.thread = .vm) (unlocked : s.world.gcLockerActive = false)
    (first : ∃ full collectRemote, FirstCollection size isTlab remote s.world full collectRemote) :
    ∃ t, satisfyFailedTypeBasedAllocation flags (hidden size remote env) size isTlab remote s =
        some (none, t) ∧ Later flags s t ∧
      t.world.rooms = scarce (if remote then size else 0) size := by
  obtain ⟨full, collectRemote, first⟩ := first
  obtain ⟨m, collected, later, rooms⟩ :=
    hidden_collection flags env size full false remote collectRemote unlocked
  rw [Bool.and_false] at rooms
  have expanded : Later flags s (expandedSession flags size isTlab m) :=
    later.trans expandedSession_later
  obtain ⟨t, last, later', rooms'⟩ := hidden_collection flags env size true true remote remote
    (expanded.locker.trans unlocked)
  rw [Bool.and_true] at rooms'
  refine ⟨t, ?_, expanded.trans later', rooms'⟩
  refine (satisfyFailedTypeBasedAllocation_none vm).mpr ⟨full, collectRemote, m, first, collected,
    ⟨scarce_tenured rooms, scarce_defNew rooms⟩, (lastResort_none (expanded.thread.trans vm)).mpr ?_⟩
  refine ⟨last, fun young => ?_, fun fits => scarce_tenured rooms' fits.expanded⟩
  rw [young] at rooms'
  exact scarce_defNew rooms'

/-! ## The operation as the requester sees it -/

theorem asVMThread_eq_some {x : Policy (Option Place)} {place : Option Place} :
    asVMThread x s = some (place, t) ↔
      ∃ m, x { s with thread := .vm } = some (place, m) ∧ { m with thread := s.thread } = t := by
  simp [asVMThread]

/-- A failed operation that starts where it is conclusive leaves the request exhausted. -/
theorem exhausted_of_conclusive
    (conclusive : Conclusive flags size isTlab pretenure ⟨remote, s.world, s.thread⟩)
    (failed : asVMThread (satisfyFailedTypeBasedAllocation flags env size isTlab remote) s = some (none, t)) :
    Exhausted flags size isTlab pretenure t := by
  obtain ⟨m, performed, rfl⟩ := asVMThread_eq_some.mp failed
  unfold Conclusive at conclusive
  split at conclusive
  · rename_i locked
    exact absurd conclusive
      ((locked_none_iff (s := { s with thread := .vm }) rfl locked).mp ⟨m, performed⟩)
  · rename_i unlocked
    have refused := unlocked_refused rfl (by simpa using unlocked) performed
    rcases conclusive with ⟨willFail, here, fits⟩ | ⟨young, noEden⟩
    · obtain ⟨full, collectRemote, _, first | first, -⟩ :=
        (satisfyFailedTypeBasedAllocation_none rfl).mp performed
      · dsimp only at willFail here
        simp [willFail, here] at first
      · exact absurd fits first.2.2.2
    · refine ⟨refused.cleared, ?_, refused.tenured, fun direct id own => ?_⟩
      · rcases young with young | rejects
        · exact refused.defNew young
        · intro fits
          exact Bool.false_ne_true (rejects.symm.trans fits.1)
      · exfalso
        rcases noEden with marked | debug | noEden
        · exact Bool.false_ne_true (direct.symm.trans marked)
        · obtain ⟨-, requester, eden, -, valid, entry, owner, -⟩ := own
          exact valid (owner.symm.trans (refused.reset debug id eden entry))
        · exact noEden id (OwnEden.before (s := { s with thread := .vm }) (t := m) refused.later own)

/-- Where the start is not conclusive the operation may fail without an exhausted request. -/
theorem conclusive_of_exhausted
    (always : ∀ env t, asVMThread (satisfyFailedTypeBasedAllocation flags env size isTlab remote)
      (.start world thread) = some (none, t) → Exhausted flags size isTlab pretenure t) :
    Conclusive flags size isTlab pretenure ⟨remote, world, thread⟩ := by
  let start : Session := .start world .vm
  unfold Conclusive
  split
  · rename_i locked
    by_contra noRoom
    obtain ⟨m, failed⟩ := (locked_none_iff (s := start) rfl locked).mpr noRoom
    have uncleared := locked_not_cleared (s := start) rfl locked failed
    have exhausted := always quiet _ (asVMThread_eq_some.mpr ⟨m, failed, rfl⟩)
    exact Bool.false_ne_true (uncleared.symm.trans exhausted.cleared)
  · rename_i locked
    have unlocked : world.gcLockerActive = false := by simpa using locked
    by_contra inconclusive
    rw [not_or] at inconclusive
    have first : ∃ full collectRemote,
        FirstCollection size isTlab remote world full collectRemote := by
      by_cases young : world.rooms.incrementalCollectionWillFail = false ∨ remote = false
      · exact ⟨false, false, .inl ⟨young, rfl, rfl⟩⟩
      · have willFail : world.rooms.incrementalCollectionWillFail = true ∧ remote = true := by
          simpa using young
        exact ⟨true, true, .inr ⟨willFail, rfl, rfl, fun fits =>
          inconclusive.1 ⟨willFail.1, willFail.2, fits⟩⟩⟩
    obtain ⟨m, failed, later, rooms⟩ := hidden_none (s := start) quiet rfl unlocked first
    have exhausted := always _ _ (asVMThread_eq_some.mpr ⟨m, failed, rfl⟩)
    apply inconclusive.2
    constructor
    · by_contra young
      obtain ⟨here, accepts⟩ : remote = true ∧ defNewShouldAllocate flags size isTlab = true := by
        simpa using young
      apply exhausted.defNew
      refine ⟨accepts, .inl ?_⟩
      simp [rooms, here, scarce]
    · by_contra own
      simp only [not_or, not_forall, not_not, Bool.not_eq_true] at own
      obtain ⟨direct, release, id, own⟩ := own
      have room := exhausted.ownEden direct id (OwnEden.after (s := start) (t := m) release later own)
      simp [rooms, scarce] at room

/-! ## The request -/

/-- Null is the result of an operation, and conclusive if that operation started so. -/
def Explained (flags : Flags) (size : Nat) (isTlab pretenure : Bool) (s : Session) : Prop :=
  ∃ start, s.operation = some start ∧
    (Conclusive flags size isTlab pretenure start → Exhausted flags size isTlab pretenure s)

theorem collectForAllocation_explained {gcCountBefore : Nat} (pretenure : Bool)
    (performed : collectForAllocation flags env size isTlab gcCountBefore remote s =
      some (some none, t)) : Explained flags size isTlab pretenure t := by
  change (if _ then _ else _ : Policy (Option (Option Place))) s = _ at performed
  split at performed
  · cases performed
  · obtain ⟨_, m, recorded, performed⟩ := bind_eq_some.mp performed
    cases recorded
    obtain ⟨place, m, failed, returned⟩ := bind_eq_some.mp performed
    obtain ⟨here, rfl⟩ := pure_eq_some.mp returned
    cases here
    refine ⟨⟨remote, s.world, s.thread⟩, ?_, fun conclusive => ?_⟩
    · obtain ⟨after, runs, rfl⟩ := asVMThread_eq_some.mp failed
      exact (failed_later rfl runs).operation
    · exact exhausted_of_conclusive
        (s := { s with operation := some ⟨remote, s.world, s.thread⟩ }) conclusive failed

theorem collectOrRetry_explained {tryCount gcCountBefore : Nat} {again : Policy (Option Place)}
    (later : ∀ s t, again s = some (none, t) → Explained flags size isTlab pretenure t)
    (failed : collectOrRetry flags env size isTlab remote tryCount gcCountBefore again s = some (none, t)) :
    Explained flags size isTlab pretenure t := by
  unfold collectOrRetry at failed
  split at failed
  · obtain ⟨_, m, -, failed⟩ := bind_eq_some.mp failed
    obtain ⟨result, after, performed, failed⟩ := bind_eq_some.mp failed
    cases result with
    | none => exact later after t failed
    | some place =>
      obtain ⟨rfl, rfl⟩ := pure_eq_some.mp failed
      exact collectForAllocation_explained pretenure performed
  · exact later s t failed

theorem allocateLoop_explained (fuel tryCount : Nat) (firstOnly : Bool) (s t : Session)
    (failed : allocateLoop flags env size isTlab remote fuel tryCount firstOnly s = some (none, t)) :
    Explained flags size isTlab pretenure t := by
  induction fuel generalizing tryCount firstOnly s t with
  | zero => cases failed
  | succ fuel later =>
    obtain ⟨_, m, -, failed⟩ := bind_eq_some.mp failed
    obtain ⟨trigger, m', -, failed⟩ := bind_eq_some.mp failed
    split at failed
    · exact collectOrRetry_explained (fun s t => later _ _ s t) failed
    · obtain ⟨m'', -, failed⟩ := firstSome_none.mp failed
      exact collectOrRetry_explained (fun s t => later _ _ s t) failed

/-- Null comes from the VM operation, and is conclusive if the operation started in a conclusive
state: exactly the states where it is so whatever the collections leave behind. -/
theorem null_conclusive_iff (flags : Flags) (size : Nat) (isTlab pretenure : Bool) :
    (∀ (env : Environment) (fuel : Nat) (world : World) (thread : Thread) (after : Session),
      memAllocateWithPretenuring flags env size isTlab fuel pretenure (.start world thread) =
          some (none, after) →
        ∃ start, after.operation = some start ∧
          (Conclusive flags size isTlab pretenure start →
            Exhausted flags size isTlab pretenure after)) ∧
    ∀ (remote : Bool) (world : World) (thread : Thread),
      (∀ (env : Environment) (after : Session),
        asVMThread (satisfyFailedTypeBasedAllocation flags env size isTlab remote)
            (.start world thread) = some (none, after) →
          Exhausted flags size isTlab pretenure after) ↔
        Conclusive flags size isTlab pretenure ⟨remote, world, thread⟩ := by
  refine ⟨fun env fuel world thread after returned => ?_, fun remote world thread => ⟨?_, ?_⟩⟩
  · obtain ⟨m, -, failed⟩ := firstSome_none.mp returned
    obtain ⟨remote, m', -, failed⟩ := bind_eq_some.mp failed
    exact allocateLoop_explained fuel 1 true m' after failed
  · exact conclusive_of_exhausted
  · exact fun conclusive env after failed =>
      exhausted_of_conclusive (s := .start world thread) conclusive failed

/-- A heap in which nothing is free, with one transaction eden. -/
def crowded : World := { roomy with rooms := scarce 0 0 }

/-- A Java thread outside any transaction. -/
def bystander : Thread := .java ⟨-1, -1, false, true, 0⟩

theorem crowded_heap_exhausted :
    ∃ after, memAllocateWithPretenuring plainFlags quiet 4 false 1 false (.start crowded bystander) =
        some (none, after) ∧ Exhausted plainFlags 4 false false after := by
  obtain ⟨after, returned, recorded⟩ : ∃ after,
      memAllocateWithPretenuring plainFlags quiet 4 false 1 false (.start crowded bystander) =
        some (none, after) ∧ after.operation = some ⟨false, crowded, bystander⟩ := ⟨_, rfl, rfl⟩
  obtain ⟨start, here, exhausted⟩ :=
    (null_conclusive_iff plainFlags 4 false false).1 quiet 1 crowded bystander after returned
  refine ⟨after, returned, exhausted ?_⟩
  rw [recorded] at here
  cases here
  refine .inr ⟨.inl rfl, .inr (.inr fun id own => ?_)⟩
  obtain ⟨-, requester, eden, java, valid, -⟩ := own
  cases java
  exact valid rfl

/-- With an active GC locker a request fails although nothing was collected; one of a transaction
thread fails although DefNew has room after the last collection. -/
theorem null_without_collection_or_despite_room :
    (∃ after, memAllocateWithPretenuring plainFlags quiet 4 false 1 false
        (.start { crowded with gcLockerActive := true } bystander) = some (none, after) ∧
      after.cleared = false) ∧
    ∃ after, memAllocateWithPretenuring plainFlags (hidden 4 true quiet) 4 false 3 false
        (.start crowded (.java worker)) = some (none, after) ∧
      DefNewFits plainFlags 4 false after.world := by
  refine ⟨⟨_, rfl, rfl⟩, ?_⟩
  have evaluated : (memAllocateWithPretenuring plainFlags (hidden 4 true quiet) 4 false 3 false
      (.start crowded (.java worker))).map (fun result => (result.1, result.2.world.rooms.eden)) =
        some (none, 4) := by decide +kernel
  obtain ⟨⟨place, after⟩, returned, result⟩ := map_eq_some_iff.mp evaluated
  obtain ⟨rfl, room⟩ := Prod.mk.inj result
  exact ⟨after, returned, by decide, .inl (le_of_eq room.symm)⟩

end AllocationFailure
