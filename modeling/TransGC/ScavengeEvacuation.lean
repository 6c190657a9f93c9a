import TransGC.EdenEvacuation
import TransGC.ScavengeReachability

/-!
# Evacuation of gen0

If the collection attempt is safe and no promotion fails, `DefNewGeneration::collect` moves the
reachable objects of eden and from-space to to-space or to Tenured: each is copied once, every slot
that pointed to it points to the copy, and apart from the new addresses and the ages nothing but
the cleared weak slots has changed.
-/
namespace ScavengeEvacuation
open EdenTable MarkWord ObjectHeap ObjectMoves YoungScavenge ScavengeSteps ScavengeInvariant
  ScavengeClosures ScavengePhases ScavengeReachability Function List

/-! ### New addresses -/

/-- The old and the new address of an object. -/
def Move.addresses (m : Move) : Nat × Nat := (m.source, m.target)

def renamed (moved : List Move) (a : Nat) : Nat :=
  EdenEvacuation.renamed (moved.map Move.addresses) a

/-- What the scan has filled: to-space is from-space afterwards. -/
def filled (after : YoungHeap) : Destination → Space
  | .toSpace => after.fromSpace
  | .tenured => after.room .tenured

/-- The objects in `moved` have gone to from-space, which was to-space before, or to the end of
Tenured, those that can be reached among them. -/
structure Scavenged (c : Scavenger) (before after : YoungHeap) (moved : List Move) : Prop where
  sources : (moved.map Move.source).Nodup
  copies : (moved.map Move.target).Nodup
  place : ∀ m ∈ moved, m.source ∈ before.sources ∧ InRoom c before m.dest m.target ∧
    (before.room m.dest).top ≤ m.target ∧
    m.target + (before.klass m.source).size ≤ (filled after m.dest).top
  room : ∀ d, (filled after d).top ≤ (before.room d).limit
  disjoint : moved.Pairwise fun m n =>
    Apart m.target (before.klass m.source).size n.target (before.klass n.source).size
  survivors : after.fromSpace.objects =
    (moved.filter fun m => m.dest = .toSpace).map Move.target
  promoted : (after.room .tenured).objects = (before.room .tenured).objects ++
    (moved.filter fun m => m.dest = .tenured).map Move.target
  reached : ∀ a, Reachable c before a → a ∈ moved.map Move.source
  klass : ∀ m ∈ moved, after.klass m.target = before.klass m.source
  mark : ∀ m ∈ moved, after.mark m.target = agedMark m.dest (before.mark m.source)
  displaced : ∀ header, ∃ n,
    after.displaced header = MarkWord.incrAge^[n] (before.displaced header)
  words : ∀ m ∈ moved, ∀ offset ∈ (before.klass m.source).slots,
    after.words (.field m.target offset) = renamed moved (before.words (.field m.source offset)) ∨
      ClearableCopy c before m offset ∧ after.words (.field m.target offset) = 0
  copyData : ∀ m ∈ moved, ∀ offset, offset ∉ (before.klass m.source).slots →
    after.words (.field m.target offset) = before.words (.field m.source offset)
  headers : ∀ obj ∈ outside before,
    after.klass obj = before.klass obj ∧ after.mark obj = before.mark obj
  data : ∀ obj ∈ outside before, ∀ offset, offset ∉ (before.klass obj).slots →
    after.words (.field obj offset) = before.words (.field obj offset)
  slots : ∀ s, OuterSlot c before s → after.words s = renamed moved (before.words s) ∨
    (∃ i, s = .weakRoot i) ∧ after.words s = 0
  held : ∀ s, OuterSlot c before s → Reachable c before (before.words s) →
    after.words s = renamed moved (before.words s)
  heldCopies : ∀ m ∈ moved, ∀ offset ∈ (before.klass m.source).slots,
    Reachable c before (before.words (.field m.source offset)) →
      after.words (.field m.target offset) = renamed moved (before.words (.field m.source offset))
  left : ∀ s, ScanSteps.HasSlot c.toCollector after.heap s → c.inGen0 (after.words s) = true →
    after.words s ∈ after.fromSpace.objects
  transNew : after.transNew = before.transNew
  perm : after.perm = before.perm
  emptied : after.eden = before.eden.clear ∧ after.room .toSpace = before.fromSpace.clear

variable {c : Scavenger} {start young : YoungHeap} {σ τ : Scan} {a value : Nat} {s : Slot}
  {m : Move} {moved : List Move}

theorem map_addresses (moved : List Move) :
    (moved.map Move.addresses).map Prod.fst = moved.map Move.source := by
  rw [map_map]
  rfl

theorem renamed_of_moved (valid : Valid c start young moved) (listed : m ∈ moved) :
    renamed moved m.source = m.target := by
  apply EdenEvacuation.renamed_of_mem
  · rw [map_addresses]
    exact valid.origins_nodup
  · exact mem_map_of_mem listed

theorem renamed_of_not_source (valid : Valid c start young moved) (other : a ∉ start.sources) :
    renamed moved a = a := by
  apply EdenEvacuation.renamed_of_not_mem
  rw [map_addresses]
  intro among
  obtain ⟨m, listed, rfl⟩ := mem_map.mp among
  exact other (valid.source m listed).1

/-! ### From the end of the scan -/

theorem renamed_of_carries (valid : Valid c start young moved) (carries : Carries moved a value)
    (settled : value ∉ start.sources) : value = renamed moved a := by
  rcases carries with rfl | ⟨m, listed, rfl, rfl⟩
  · exact (renamed_of_not_source valid settled).symm
  · exact (renamed_of_moved valid listed).symm

theorem carries_of_points (valid : Valid c start σ.toYoungHeap moved) (among : a ∈ start.sources)
    (points : Points c σ a value) : Carries moved a value := by
  rcases points with same | ⟨black, same⟩
  · exact .inl same
  · obtain ⟨m, listed, source, target⟩ := valid.target_of_forwarded among black
    exact .inr ⟨m, listed, source, target.trans same.symm⟩

/-- A settled slot that points into gen0 points to a survivor. -/
theorem survivor_of_carries (formed : Startable c start)
    (valid : Valid c start young moved)
    (pointer : c.inGen0 a = true → a ∈ start.sources) (carries : Carries moved a value)
    (settled : value ∉ start.sources) (inside : c.inGen0 value = true) :
    value ∈ (young.room .toSpace).objects := by
  rcases carries with rfl | ⟨m, listed, -, rfl⟩
  · exact absurd (pointer inside) settled
  · have dest : m.dest = .toSpace := by
      have young := inGen0_iff.mp inside
      have gen1 := formed.gen1Below
      have place := valid.target_inRoom formed.toWellFormed listed
      cases dest : m.dest with
      | toSpace => rfl
      | tenured =>
        rw [dest] at place
        obtain ⟨low, -⟩ := place
        omega
    rw [valid.objects]
    exact mem_append_right _
      (mem_map_of_mem (mem_filter.mpr ⟨listed, by simp [dest]⟩))

theorem pointer_of_outerSlot (formed : Startable c start) (slot : OuterSlot c start s)
    (inside : c.inGen0 (start.words s) = true) : start.words s ∈ start.sources := by
  refine formed.pointers s ?_ inside
  cases slot with
  | weakRoot bound => exact .weakRoot bound
  | held root =>
    cases root with
    | root bound => exact .root bound
    | field outer slot => exact .field (allObjects_of_outside outer) slot

theorem pointer_of_moved (formed : Startable c start) (valid : Valid c start young moved)
    (listed : m ∈ moved) {offset : Nat} (slot : offset ∈ (start.klass m.source).slots)
    (inside : c.inGen0 (start.words (.field m.source offset)) = true) :
    start.words (.field m.source offset) ∈ start.sources :=
  formed.pointers _ (.field (allObjects_of_source (valid.source m listed).1) slot) inside

theorem endScan_eq (success : τ.promotionFailed = false) :
    endScan c τ = { τ.toYoungHeap with
      eden := τ.eden.clear
      fromSpace := τ.room .toSpace
      room := update τ.room .toSpace τ.fromSpace.clear
      tenuringThreshold := (endScan c τ).tenuringThreshold } := by
  simp [endScan, success, YoungHeap.swapSpaces]

theorem filled_endScan (success : τ.promotionFailed = false) (d : Destination) :
    filled (endScan c τ) d = τ.room d := by
  rw [endScan_eq success]
  cases d <;> rfl

/-- The slots after the scan: those that a scavenge leaves in place, and those of the copies. -/
theorem hasSlot_cases (formed : Startable c start) (valid : Valid c start τ.toYoungHeap moved)
    (success : τ.promotionFailed = false)
    (has : ScanSteps.HasSlot c.toCollector (endScan c τ).heap s) :
    OuterSlot c start s ∨
      ∃ m ∈ moved, ∃ offset ∈ (start.klass m.source).slots, s = .field m.target offset := by
  rw [endScan_eq success] at has
  cases has with
  | root bound => exact .inl (.held (.root bound))
  | weakRoot bound => exact .inl (.weakRoot bound)
  | @field obj offset among slot =>
    change offset ∈ (τ.klass obj).slots at slot
    have stays : obj ∈ outside start → OuterSlot c start (.field obj offset) := by
      intro outer
      rw [valid.klass obj (.inr outer)] at slot
      exact .held (.field outer slot)
    have place : obj ∈ outside start ∨ ∃ m ∈ moved, m.target = obj := by
      simp only [ScanSteps.allObjects, YoungHeap.heap, Space.clear, update_self,
        update_of_ne (show Destination.tenured ≠ .toSpace by decide), nil_append,
        append_nil, mem_append] at among
      rcases among with ((survivor | eden) | tenured) | permanent
      · exact valid.mem_target formed.vacated survivor
      · rw [valid.transNew] at eden
        exact .inl (by simp [outside, YoungHeap.edenObjects, eden])
      · exact valid.mem_target formed.vacated tenured
      · rw [valid.perm] at permanent
        exact .inl (by simp [outside, permanent])
    rcases place with outer | ⟨m, listed, rfl⟩
    · exact .inl (stays outer)
    · rw [valid.copyKlass m listed] at slot
      exact .inr ⟨m, listed, offset, slot, rfl⟩

/-- After the scan a slot that points into gen0 points to a survivor. -/
theorem survivor_of_hasSlot (formed : Startable c start) (ended : Ended c start τ)
    (valid : Valid c start τ.toYoungHeap moved) (success : τ.promotionFailed = false)
    (has : ScanSteps.HasSlot c.toCollector (endScan c τ).heap s)
    (inside : c.inGen0 (τ.words s) = true) : τ.words s ∈ (τ.room .toSpace).objects := by
  have nonNull := formed.nonNull
  have zero : ¬ c.inGen0 0 = true := fun inside => by
    have := inGen0_iff.mp inside
    omega
  rcases hasSlot_cases formed valid success has with slot | ⟨m, listed, offset, slot, rfl⟩
  · rcases valid.words s slot.outer.inPlace with carries | ⟨-, null⟩
    · exact survivor_of_carries formed valid (pointer_of_outerSlot formed slot) carries
        (ended.slots s slot) inside
    · rw [null] at inside
      exact absurd inside zero
  · rcases valid.copySlots m listed offset with carries | ⟨-, null⟩
    · exact survivor_of_carries formed valid (pointer_of_moved formed valid listed slot) carries
        (ended.copies moved valid m listed offset slot) inside
    · rw [null] at inside
      exact absurd inside zero

theorem scavenged_of_ended (formed : Startable c start) (ended : Ended c start τ)
    (valid : Valid c start τ.toYoungHeap moved) (success : τ.promotionFailed = false) :
    Scavenged c start (endScan c τ) moved := by
  have slots := ended.slots
  have copies := ended.copies moved valid
  have left := fun s (has : ScanSteps.HasSlot c.toCollector (endScan c τ).heap s) =>
    survivor_of_hasSlot formed ended valid success has
  have tops := filled_endScan (c := c) success
  have heap := endScan_eq (c := c) success
  rw [heap] at left tops ⊢
  exact
    { sources := valid.origins_nodup
      copies := valid.targets_nodup formed.layout
      place := fun m listed =>
        ⟨(valid.source m listed).1, valid.target_inRoom formed.toWellFormed listed,
          (valid.fresh m listed).1, by rw [tops]; exact valid.extent m listed⟩
      room := fun d => by rw [tops]; exact (valid.top d).2
      disjoint := valid.apart.imp And.right
      survivors := by
        rw [valid.objects, formed.vacated, nil_append]
      promoted := valid.objects .tenured
      reached := by
        intro a path
        obtain ⟨m, listed, rfl⟩ := valid.forwarded a path.among (ended.reached a path).1
        exact mem_map_of_mem listed
      klass := valid.copyKlass
      mark := valid.copyMark
      displaced := valid.displaced
      words := by
        intro m listed offset slot
        rcases valid.copySlots m listed offset with carries | cleared
        · exact .inl (renamed_of_carries valid carries (copies m listed offset slot))
        · exact .inr cleared
      copyData := valid.copyData
      headers := fun obj outer => ⟨valid.klass obj (.inr outer), valid.mark obj (.inr outer)
        fun source => absurd source (formed.outside_not_source outer)⟩
      data := fun obj outer => valid.data obj (.inr outer)
      slots := by
        intro s slot
        rcases valid.words s slot.outer.inPlace with carries | cleared
        · exact .inl (renamed_of_carries valid carries (slots s slot))
        · exact .inr cleared
      held := by
        intro s slot path
        have points := (ended.reached _ path).2.outer s slot.outer rfl
        exact renamed_of_carries valid (carries_of_points valid path.among points) (slots s slot)
      heldCopies := by
        intro m listed offset slot path
        obtain ⟨among, pointer⟩ := valid.source m listed
        have points := (ended.reached _ path).2.copies m.source among
          (isForwarded_of_mark pointer) offset rfl
        rw [forwardee_of_mark pointer] at points
        exact renamed_of_carries valid (carries_of_points valid path.among points)
          (copies m listed offset slot)
      left := left
      transNew := valid.transNew
      perm := valid.perm
      emptied := by
        constructor
        · change τ.eden.clear = start.eden.clear
          rw [valid.eden]
        · change update τ.room .toSpace τ.fromSpace.clear .toSpace = _
          rw [update_self, valid.fromSpace] }

/-! ### The collection -/

theorem objects_of_isEmpty (formed : WellFormed c young)
    (vacant : (young.room .toSpace).isEmpty = true) : (young.room .toSpace).objects = [] := by
  have empty : (young.room .toSpace).top = (young.room .toSpace).bottom := by
    simpa [Space.isEmpty] using vacant
  apply eq_nil_iff_forall_not_mem.mpr
  intro a among
  have place := formed.survivors a among
  omega

theorem clear_of_isEmpty (formed : WellFormed c young)
    (vacant : (young.room .toSpace).isEmpty = true) :
    (young.room .toSpace).clear = young.room .toSpace := by
  have empty : (young.room .toSpace).top = (young.room .toSpace).bottom := by
    simpa [Space.isEmpty] using vacant
  have none := objects_of_isEmpty formed vacant
  generalize young.room .toSpace = space at empty none ⊢
  obtain ⟨bottom, top, limit, objects⟩ := space
  dsimp only at empty none
  subst empty none
  rfl

/-- A collection that is attempted, with to-space empty and the cards marked, comes to its end, and
if no promotion failed it is a scavenge. -/
theorem collect_scavenges (formed : WellFormed c young)
    (vacant : (young.room .toSpace).isEmpty = true)
    (safe : promotionAttemptIsSafe c young (c.worstCaseEvacuation young.used) = true)
    (cards : CardsMarked c young) (success : (scavenge c young).promotionFailed = false) :
    ∃ σ after moved, collect c young = some (.finished σ after) ∧
      Scavenged c young after moved := by
  have startable : Startable c young := ⟨formed, objects_of_isEmpty formed vacant⟩
  have ended := scavenge_ends startable cards success
  obtain ⟨moved, valid⟩ := ended.inv.valid
  refine ⟨scavenge c young, endScan c (scavenge c young), moved, ?_,
    scavenged_of_ended startable ended valid success⟩
  have attempted : collectionAttemptIsSafe c young = true := by
    rw [collectionAttemptIsSafe, vacant, safe]
    rfl
  unfold collect
  rw [if_pos attempted, clear_of_isEmpty formed vacant, update_eq_self]
  dsimp only
  rw [ended.running]
  rfl

section

/-! A heap in which a root, an object of TransNew and one of Tenured refer to objects of eden and
from-space. What there is in from-space has reached the tenuring age. -/

private def mixedScavenger : Scavenger where
  id := 0
  rootCount := 1
  weakRootCount := 1
  start := fun
    | .gen0 => 8
    | .gen1 => 64
    | .old => 128
    | .perm => 256
  oldEnd := 256
  edenBottom := fun id => 64 + 32 * id
  edenEnd := fun id => 96 + 32 * id
  useBiasedLocking := false
  shouldClear := fun _ => true
  grants := fun _ => true
  clears := fun _ => true
  worstCaseEvacuation := id
  paddedAverage := 16
  maxTenuringThreshold := 15
  targetSurvivorRatio := 50

private def mixedHeap (full : Bool) : YoungHeap where
  words := fun
    | .root _ => 8
    | .weakRoot _ => 16
    | .field obj offset =>
      if offset = 2 ∧ obj = 64 then 12 else if offset = 2 ∧ (obj = 128 ∨ obj = 8) then 32 else 0
  mark := fun a => if a = 32 then 9 else 1
  displaced := fun _ => 0
  klass := fun _ => ⟨4, [2], false, none, 1⟩
  cards := fun _ _ => .dirty
  eden := ⟨8, 20, 32, [8, 12, 16]⟩
  fromSpace := ⟨32, 36, 48, [32]⟩
  room := fun
    | .toSpace => ⟨48, 48, 64, []⟩
    | .tenured => ⟨128, 132, if full then 140 else 192, [128]⟩
  transNew := ⟨[⟨0, 7, false, false, .assigned, [64]⟩], 0, 0, 1⟩
  perm := []
  tenuringThreshold := 1
  incrementalCollectionWillFail := false

private theorem mixedHeap_wellFormed (full : Bool) :
    WellFormed mixedScavenger (mixedHeap full) where
  nonNull := by decide
  gen1Below := by decide
  toAbove := by decide +revert
  toBelow := by decide +revert
  oldAbove := by decide +revert
  permAbove := by decide +revert
  topInside d := by
    cases d with
    | toSpace => decide +revert
    | tenured => decide +revert
  sources := by decide +revert
  survivors := by decide +revert
  edens := by decide +revert
  tenured := by decide +revert
  perm := by decide +revert
  distinct := by decide +revert
  sized := by decide +revert
  unmarked := by decide +revert
  pointers := by
    intro s has
    cases has with
    | root | weakRoot => exact fun _ => by decide +revert
    | @field obj offset among slot =>
      cases mem_singleton.mp slot
      revert obj
      decide +revert
  oopMaps := by decide +revert

private theorem mixedHeap_cardsMarked (full : Bool) :
    CardsMarked mixedScavenger (mixedHeap full) := by
  intro region objects listed obj among offset slot young clean
  cases clean

theorem mixed_scavenged :
    ∃ σ after moved, collect mixedScavenger (mixedHeap false) = some (.finished σ after) ∧
      Scavenged mixedScavenger (mixedHeap false) after moved ∧
      after.fromSpace.objects = [48, 52] ∧ (after.room .tenured).objects = [128, 132] := by
  obtain ⟨σ, after, moved, collects, scavenged⟩ := collect_scavenges
    (mixedHeap_wellFormed false) (by decide) (by decide)
    (mixedHeap_cardsMarked false) (by decide +kernel)
  have observed : (collect mixedScavenger (mixedHeap false)).map (fun
      | .returned _ => ([], [])
      | .finished _ after => (after.fromSpace.objects, (after.room .tenured).objects)) =
        some ([48, 52], [128, 132]) := by decide +kernel
  rw [collects] at observed
  have both := Prod.mk.inj (Option.some.inj observed)
  exact ⟨σ, after, moved, collects, scavenged, both.1, both.2⟩

/-- Tenured has room for all that would be promoted, but neither for all that is in use nor for what
earlier collections promoted: nothing is copied. -/
theorem mixed_not_attempted :
    WellFormed mixedScavenger (mixedHeap true) ∧
      ((mixedHeap true).room .toSpace).isEmpty = true ∧
      CardsMarked mixedScavenger (mixedHeap true) ∧
      (scavenge mixedScavenger (mixedHeap true)).promotionFailed = false ∧
      Reachable mixedScavenger (mixedHeap true) 8 ∧
      (∃ after, collect mixedScavenger (mixedHeap true) = some (.returned after) ∧
        after.eden = (mixedHeap true).eden ∧ after.words = (mixedHeap true).words) ∧
      ¬ ∃ σ after moved, collect mixedScavenger (mixedHeap true) = some (.finished σ after) ∧
        Scavenged mixedScavenger (mixedHeap true) after moved := by
  have returns : collect mixedScavenger (mixedHeap true) =
      some (.returned { mixedHeap true with incrementalCollectionWillFail := true }) := rfl
  have held : RootSlot mixedScavenger (mixedHeap true) (.root 0) := .root (by decide)
  refine ⟨mixedHeap_wellFormed true, by decide, mixedHeap_cardsMarked true,
    by decide +kernel, .direct held (by decide), ⟨_, returns, rfl, rfl⟩, ?_⟩
  rintro ⟨σ, after, moved, finishes, -⟩
  cases finishes

end

end ScavengeEvacuation
