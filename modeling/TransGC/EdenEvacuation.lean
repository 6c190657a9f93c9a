import TransGC.EdenReachability

/-!
# Evacuation of an eden

If no promotion fails, `collectTransEden` moves the reachable objects of the eden to Tenured:
each is copied once, every slot that pointed to it points to the copy, and apart from the new
addresses nothing but the cleared weak slots has changed.
-/
namespace EdenEvacuation
open EdenTable MarkWord ObjectHeap ObjectMoves EdenScan ScanSteps ScanInvariant EdenReachability Option
  TransNewGeneration List

/-! ### New addresses -/

/-- Where an object is after those in `moved` have gone from one address of a pair to the other. -/
def renamed (moved : List (Nat × Nat)) (a : Nat) : Nat := (moved.lookup a).getD a

theorem renamed_of_mem {moved : List (Nat × Nat)} {a target : Nat}
    (distinct : (moved.map Prod.fst).Nodup) (pair : (a, target) ∈ moved) :
    renamed moved a = target := by
  unfold renamed
  induction moved with
  | nil => cases pair
  | cons p moved ih =>
    obtain ⟨b, t⟩ := p
    rw [map_cons, nodup_cons] at distinct
    rcases mem_cons.mp pair with same | later
    · cases same
      rw [lookup_cons_self, getD_some]
    · have other : a ≠ b := by
        rintro rfl
        exact distinct.1 (mem_map.mpr ⟨_, later, rfl⟩)
      rw [lookup_cons, beq_false_of_ne other]
      exact ih distinct.2 later

theorem renamed_of_not_mem {moved : List (Nat × Nat)} {a : Nat}
    (missing : a ∉ moved.map Prod.fst) : renamed moved a = a := by
  have none : moved.lookup a = none := by
    rw [lookup_eq_none_iff]
    intro p pair
    have other : a ≠ p.1 := by
      rintro rfl
      exact missing (mem_map_of_mem pair)
    simpa using other
  rw [renamed, none, getD_none]

/-- The objects in `moved` have gone to the end of Tenured, those that can be reached among them. -/
structure Evacuated (c : Collector) (before after : Heap) (moved : List (Nat × Nat)) : Prop where
  sources : (moved.map Prod.fst).Nodup
  copies : (moved.map Prod.snd).Nodup
  old : after.old = before.old ++ moved.map Prod.snd
  place : ∀ p ∈ moved, p.1 ∈ before.edenObjects c.id ∧ before.oldTop ≤ p.2 ∧
    p.2 + (before.klass p.1).size ≤ after.oldTop
  room : after.oldTop ≤ c.oldEnd
  disjoint : moved.Pairwise fun p q => Apart p.2 (before.klass p.1).size q.2 (before.klass q.1).size
  reached : ∀ a, Reachable c before a → a ∈ moved.map Prod.fst
  klass : ∀ p ∈ moved, after.klass p.2 = before.klass p.1
  mark : ∀ p ∈ moved, after.mark p.2 = before.mark p.1
  words : ∀ p ∈ moved, ∀ offset, after.words (.field p.2 offset) =
    if offset ∈ (before.klass p.1).slots then renamed moved (before.words (.field p.1 offset))
    else before.words (.field p.1 offset)
  headers : ∀ obj ∈ outsideObjects c before,
    after.klass obj = before.klass obj ∧ after.mark obj = before.mark obj
  data : ∀ obj ∈ outsideObjects c before, ∀ offset, offset ∉ (before.klass obj).slots →
    after.words (.field obj offset) = before.words (.field obj offset)
  slots : ∀ s, OutsideSlot c before s → after.words s = renamed moved (before.words s) ∨
    Clearable c before s ∧ after.words s = 0
  held : ∀ s, OutsideSlot c before s → Reachable c before (before.words s) →
    after.words s = renamed moved (before.words s)
  left : ∀ s, HasSlot c after s → c.inEden (after.words s) = false
  gen0 : after.gen0 = before.gen0
  perm : after.perm = before.perm
  edens : ∀ id, id ≠ c.id → after.transNew.transEdens[id]? = before.transNew.transEdens[id]?
  emptied : ∃ eden, after.transNew.transEdens[c.id]? = some eden ∧ eden.state = .available ∧
    eden.objects = []

/-! ### From the end of the scan -/

section

variable {c : Collector} {start : Heap} {Good : Nat → Prop} {τ : Scan} {moved : List (Nat × Nat)}
  {eden : TransEden} {before after : Nat}

/-- Without a failed promotion a settled slot has been renamed and points out of the eden. -/
theorem renamed_of_carries (setup : Setup c start Good) (inv : Inv c start Good τ)
    (valid : Valid c start Good τ.toHeap moved) (success : τ.promotionFailed = false)
    (inside : c.inEden before = true → before ∈ start.edenObjects c.id)
    (carries : Carries c start τ.toHeap before after) (settled : Settled c τ.toHeap after) :
    after = renamed moved before ∧ c.inEden after = false := by
  have notSelf : ∀ a ∈ start.edenObjects c.id, ¬ SelfForwarded c τ.toHeap a := by
    intro a among itself
    have failed := inv.failure a among itself
    rw [success] at failed
    cases failed
  rcases carries with rfl | ⟨among, marked, rfl⟩
  · have outside : c.inEden after = false := by
      cases points : c.inEden after with
      | false => rfl
      | true =>
        rcases settled with outside | itself
        · rw [points] at outside
          cases outside
        · exact absurd itself (notSelf after (inside points))
    refine ⟨(renamed_of_not_mem ?_).symm, outside⟩
    intro moves
    obtain ⟨p, pair, rfl⟩ := mem_map.mp moves
    rw [setup.formed.inEden _ (setup.closed.eden _ (valid.source p pair).1)] at outside
    cases outside
  · rcases valid.forwardee_cases among marked with ⟨target, pair, same, above⟩ | same
    · rw [same]
      exact ⟨(renamed_of_mem valid.origins_nodup pair).symm, setup.formed.not_inEden above⟩
    · exact absurd ⟨marked, same⟩ (notSelf before among)

theorem endCollect_transEdens (entry : start.transNew.transEdens[c.id]? = some eden)
    (valid : Valid c start Good τ.toHeap moved) (success : τ.promotionFailed = false) :
    (endScan c τ).transNew.transEdens = start.transNew.transEdens.set c.id eden.reset.clear := by
  change (τ.transNew.endCollect τ.promotionFailed c.id).transEdens = _
  rw [valid.transNew, success]
  change ((start.transNew.resetTransEden c.id).clearTransEden c.id).transEdens = _
  rw [reset_clear_eq _ entry]
  rfl

theorem endScan_toHeap (success : τ.promotionFailed = false) :
    endScan c τ = { τ.toHeap with transNew := (endScan c τ).transNew } := by
  simp [endScan, success]

/-- The slots after a successful scan: those outside the eden, and those of the copies. -/
theorem hasSlot_endScan (entry : start.transNew.transEdens[c.id]? = some eden)
    (formed : WellFormed c start) (valid : Valid c start Good τ.toHeap moved)
    (success : τ.promotionFailed = false) {s : Slot} (has : HasSlot c (endScan c τ) s) :
    OutsideSlot c start s ∨ ∃ p ∈ moved, ∃ offset ∈ (start.klass p.1).slots, s = .field p.2 offset := by
  have table := endCollect_transEdens entry valid success
  rw [endScan_toHeap success] at has
  cases has with
  | root bound => exact .inl (.root bound)
  | weakRoot bound => exact .inl (.weakRoot bound)
  | @field obj offset among slot =>
    have outside : obj ∈ outsideObjects c start → OutsideSlot c start (.field obj offset) := by
      intro outside
      refine .field outside ?_
      rw [← valid.klass obj (kept_of_outside formed outside)]
      exact slot
    simp only [allObjects, mem_append, mem_flatMap, valid.gen0, valid.perm, valid.old,
      table] at among
    rcases among with ((young | ⟨other, listed, inside⟩) | old | copy) | perm
    · exact .inl (outside (mem_outsideObjects.mpr (.inl young)))
    · obtain ⟨id, found⟩ := getElem?_of_mem listed
      have bound := (List.getElem?_eq_some_iff.mp found).1
      rw [length_set] at bound
      by_cases same : c.id = id
      · subst same
        rw [getElem?_set_self bound] at found
        cases some.inj found
        cases inside
      · rw [getElem?_set_ne same] at found
        refine .inl (outside (mem_outsideObjects.mpr (.inr (.inl ⟨id, bound, Ne.symm same, ?_⟩))))
        simpa [Heap.edenObjects, found] using inside
    · exact .inl (outside (mem_outsideObjects.mpr (.inr (.inr (.inl old)))))
    · obtain ⟨p, pair, rfl⟩ := mem_map.mp copy
      refine .inr ⟨p, pair, offset, ?_, rfl⟩
      rw [← valid.copyKlass p pair]
      exact slot
    · exact .inl (outside (mem_outsideObjects.mpr (.inr (.inr (.inr perm)))))

section Ended

variable (setup : Setup c start Good) (ended : Ended c start Good τ)
  (valid : Valid c start Good τ.toHeap moved) (success : τ.promotionFailed = false)
include setup ended valid success

theorem copySlot_renamed {p : Nat × Nat} {offset : Nat} (pair : p ∈ moved)
    (slot : offset ∈ (start.klass p.1).slots) :
    τ.words (.field p.2 offset) = renamed moved (start.words (.field p.1 offset)) ∧
      c.inEden (τ.words (.field p.2 offset)) = false := by
  have among := (edenObjects_subset (setup.closed.eden _ (valid.source p pair).1)).2
  exact renamed_of_carries setup ended.inv valid success
    (setup.formed.pointers _ (.field among slot)) (valid.copyWords p pair offset)
    (ended.copies moved valid p pair offset slot)

theorem outsideSlot_renamed {s : Slot} (outside : OutsideSlot c start s)
    (carries : Carries c start τ.toHeap (start.words s) (τ.words s)) :
    τ.words s = renamed moved (start.words s) ∧ c.inEden (τ.words s) = false := by
  refine renamed_of_carries setup ended.inv valid success (setup.formed.pointers _ ?_) carries
    (ended.slots s outside)
  cases outside with
  | root bound => exact .root bound
  | weakRoot bound => exact .weakRoot bound
  | field outside slot => exact .field (allObjects_of_outside outside) slot

omit setup in
theorem moved_of_reachable {a : Nat} (path : Reachable c start a) : a ∈ moved.map Prod.fst := by
  have marked := ended.reached a path
  rcases valid.forwarded a path.among marked with ⟨target, pair⟩ | ⟨-, pointer⟩
  · exact mem_map_of_mem pair
  · have failed := ended.inv.failure a path.among ⟨marked, forwardee_of_mark pointer⟩
    rw [success] at failed
    cases failed

theorem evacuated_of_ended (entry : start.transNew.transEdens[c.id]? = some eden) :
    Evacuated c start (endScan c τ) moved := by
  have table := endCollect_transEdens entry valid success
  have heap := endScan_toHeap (c := c) success
  have bound := (List.getElem?_eq_some_iff.mp entry).1
  rw [heap]
  exact
    { sources := valid.origins_nodup
      copies := valid.targets_nodup setup.layout
      old := valid.old
      place := by
        intro p pair
        exact ⟨setup.closed.eden _ (valid.source p pair).1, (valid.fresh p pair).1,
          valid.extent p pair⟩
      room := valid.limit
      disjoint := valid.apart.imp And.right
      reached := fun a => moved_of_reachable ended valid success
      klass := valid.copyKlass
      mark := valid.copyMark
      words := by
        intro p pair offset
        split
        · rename_i slot
          exact (copySlot_renamed setup ended valid success pair slot).1
        · rename_i noSlot
          exact valid.copyData p pair offset noSlot
      headers := by
        intro obj outside
        change τ.klass obj = start.klass obj ∧ τ.mark obj = start.mark obj
        exact ⟨valid.klass obj (kept_of_outside setup.formed outside),
          mark_of_outside setup valid outside⟩
      data := by
        intro obj outside offset noSlot
        exact valid.data obj (kept_of_outside setup.formed outside) offset noSlot
      slots := by
        intro s outside
        rcases valid.words s (outside.inPlace setup.formed) with carries | cleared
        · exact .inl (outsideSlot_renamed setup ended valid success outside carries).1
        · exact .inr cleared
      held := fun s outside path =>
        (outsideSlot_renamed setup ended valid success outside (ended.held s outside path)).1
      left := by
        intro s has
        rw [← heap] at has
        rcases hasSlot_endScan entry setup.formed valid success has with
          outside | ⟨p, pair, offset, slot, rfl⟩
        · rcases valid.words s (outside.inPlace setup.formed) with carries | ⟨-, zero⟩
          · exact (outsideSlot_renamed setup ended valid success outside carries).2
          · change c.inEden (τ.words s) = false
            rw [zero]
            exact setup.formed.inEden_zero
        · exact (copySlot_renamed setup ended valid success pair slot).2
      gen0 := valid.gen0
      perm := valid.perm
      edens := by
        intro id other
        rw [table, getElem?_set_ne (Ne.symm other)]
      emptied := by
        refine ⟨eden.reset.clear, ?_, rfl, rfl⟩
        rw [table, getElem?_set_self bound] }

end Ended

end

/-! ### From the call on -/

section

variable {c : Collector} {heap : Heap} {gen : TransNewGeneration} {a : Nat} {s : Slot}

/-- Two tables of edens with the same objects in them. -/
def SameObjects (before after : TransNewGeneration) : Prop :=
  after.transEdens.map TransEden.objects = before.transEdens.map TransEden.objects

theorem edenObjects_eq_getD (heap : Heap) (id : Nat) :
    heap.edenObjects id = ((heap.transNew.transEdens.map TransEden.objects)[id]?).getD [] := by
  rw [getElem?_map]
  unfold Heap.edenObjects
  cases heap.transNew.transEdens[id]? <;> rfl

section

variable (same : SameObjects heap.transNew gen)
include same

theorem SameObjects.edenObjects (id : Nat) :
    { heap with transNew := gen }.edenObjects id = heap.edenObjects id := by
  rw [edenObjects_eq_getD, edenObjects_eq_getD, same]

theorem SameObjects.allObjects : allObjects { heap with transNew := gen } = allObjects heap := by
  unfold ScanSteps.allObjects
  rw [flatMap_def, flatMap_def, same]

theorem SameObjects.outsideObjects :
    outsideObjects c { heap with transNew := gen } = outsideObjects c heap := by
  have size : gen.maxTransEden = heap.transNew.maxTransEden := by
    simpa [maxTransEden] using congrArg length same
  have contents : { heap with transNew := gen }.edenObjects = heap.edenObjects :=
    funext same.edenObjects
  unfold EdenReachability.outsideObjects
  rw [contents, size]

theorem SameObjects.hasSlot (has : HasSlot c { heap with transNew := gen } s) :
    HasSlot c heap s := by
  cases has with
  | root bound => exact .root bound
  | weakRoot bound => exact .weakRoot bound
  | field among slot =>
    rw [same.allObjects] at among
    exact .field among slot

theorem SameObjects.wellFormed (formed : WellFormed c heap) :
    WellFormed c { heap with transNew := gen } := by
  have contents := same.edenObjects
  exact
    { formed with
      inEden := by
        rw [contents]
        exact formed.inEden
      otherEdens := by
        intro i
        rw [contents]
        exact formed.otherEdens i
      sized := by
        rw [contents]
        exact formed.sized
      unmarked := by
        rw [contents]
        exact formed.unmarked
      pointers := by
        rw [contents]
        exact fun s has => formed.pointers s (same.hasSlot has)
      oopMaps := by
        rw [same.allObjects]
        exact formed.oopMaps }

theorem SameObjects.reachable (path : Reachable c heap a) :
    Reachable c { heap with transNew := gen } a := by
  have contents := same.edenObjects c.id
  induction path with
  | direct held inside =>
    rw [← contents] at inside
    refine .direct ?_ inside
    cases held with
    | root bound => exact .root bound
    | field outside strong =>
      rw [← same.outsideObjects] at outside
      exact .field outside strong
  | step reached strong inside ih =>
    rw [← contents] at inside
    exact .step ih strong inside

theorem SameObjects.outsideSlot (outside : OutsideSlot c heap s) :
    OutsideSlot c { heap with transNew := gen } s := by
  cases outside with
  | root bound => exact .root bound
  | weakRoot bound => exact .weakRoot bound
  | field outside slot =>
    rw [← same.outsideObjects] at outside
    exact .field outside slot

theorem SameObjects.evacuated {after : Heap} {moved : List (Nat × Nat)}
    (others : ∀ id, id ≠ c.id → gen.transEdens[id]? = heap.transNew.transEdens[id]?)
    (evacuated : Evacuated c { heap with transNew := gen } after moved) :
    Evacuated c heap after moved :=
  { evacuated with
    place := by
      rw [← same.edenObjects]
      exact evacuated.place
    reached := fun a path => evacuated.reached a (same.reachable path)
    headers := by
      rw [← same.outsideObjects]
      exact evacuated.headers
    data := by
      rw [← same.outsideObjects]
      exact evacuated.data
    slots := fun s outside => evacuated.slots s (same.outsideSlot outside)
    held := fun s outside path => evacuated.held s (same.outsideSlot outside) (same.reachable path)
    edens := fun id other => (evacuated.edens id other).trans (others id other) }

end

/-- The first half of the call goes on to the scan with the eden in state Collecting. -/
theorem beginCollect_scans {eden : TransEden} (entry : heap.transNew.transEdens[c.id]? = some eden)
    (ended : eden.state = .collectable) :
    ∃ gen, heap.transNew.beginCollect false true c.id = some (.scanning gen) ∧
      gen.transEdens = heap.transNew.transEdens.set c.id { eden with state := .collecting } := by
  refine ⟨{ heap.transNew with
    collectableCount := heap.transNew.collectableCount - 1 }.setTransEden c.id
      { eden with state := .collecting }, ?_, rfl⟩
  unfold beginCollect
  rw [getTransEden_natCast, entry]
  simp [ended]

theorem sameObjects_of_set {eden next : TransEden} {id : Nat}
    (entry : heap.transNew.transEdens[id]? = some eden)
    (table : gen.transEdens = heap.transNew.transEdens.set id next)
    (kept : next.objects = eden.objects) :
    SameObjects heap.transNew gen := by
  have bound := (List.getElem?_eq_some_iff.mp entry).1
  apply ext_getElem?
  intro other
  rw [table, getElem?_map, getElem?_map]
  by_cases target : id = other
  · subst target
    rw [getElem?_set_self bound, entry, Option.map_some, Option.map_some, kept]
  · rw [getElem?_set_ne target]

theorem onlyCollecting_of_set {eden : TransEden} (entry : heap.transNew.transEdens[c.id]? = some eden)
    (idle : ∀ other ∈ heap.transNew.transEdens, other.state ≠ .collecting)
    (table : gen.transEdens =
      heap.transNew.transEdens.set c.id { eden with state := .collecting }) :
    OnlyCollecting c { heap with transNew := gen } := by
  intro id other found
  have bound := (List.getElem?_eq_some_iff.mp entry).1
  rw [table] at found
  by_cases target : c.id = id
  · subst target
    rw [getElem?_set_self bound] at found
    cases Option.some.inj found
    simp
  · rw [getElem?_set_ne target] at found
    have quiet := idle other (mem_of_getElem? found)
    simp [quiet, Ne.symm target]

/-- The collection of a Collectable eden ends, and if no promotion failed it is an evacuation. -/
theorem collectTransEden_evacuates {eden : TransEden} (formed : WellFormed c heap)
    (entry : heap.transNew.transEdens[c.id]? = some eden) (ended : eden.state = .collectable)
    (idle : ∀ other ∈ heap.transNew.transEdens, other.state ≠ .collecting)
    (cards : CardsMarked c heap) :
    ∃ σ after, collectTransEden c false true heap = some (.finished σ after) ∧
      (σ.promotionFailed = false → ∃ moved, Evacuated c heap after moved) := by
  obtain ⟨gen, begins, table⟩ := beginCollect_scans entry ended
  have same : SameObjects heap.transNew gen := sameObjects_of_set entry table rfl
  have formed' := same.wellFormed formed
  have bound := (List.getElem?_eq_some_iff.mp entry).1
  obtain ⟨τ, ends, scanned⟩ :=
    evacuateEden_ends formed' (onlyCollecting_of_set entry idle table) cards
  refine ⟨τ, endScan c τ, ?_, fun success => ?_⟩
  · unfold EdenScan.collectTransEden
    simp only [begins, ends, Option.map_some]
  · obtain ⟨moved, valid⟩ := scanned.inv.valid
    have scanning : gen.transEdens[c.id]? = some { eden with state := .collecting } := by
      rw [table, getElem?_set_self bound]
    refine ⟨moved, same.evacuated (fun id other => ?_)
      (evacuated_of_ended (setup_eden formed') scanned valid success scanning)⟩
    rw [table, getElem?_set_ne (Ne.symm other)]

end

/-- A root reaches the first of two objects in the eden, and so does an object in Tenured. -/
private def pairCollector : Collector where
  id := 0
  rootCount := 1
  weakRootCount := 1
  start := fun
    | .gen0 => 1
    | .gen1 => 64
    | .old => 128
    | .perm => 256
  oldEnd := 256
  edenBottom := fun id => 64 + 32 * id
  edenEnd := fun id => 96 + 32 * id
  useBiasedLocking := false
  shouldClear := fun _ => true
  grants := fun _ => true

private def pairHeap : Heap where
  words := fun
    | .root _ => 64
    | .weakRoot _ => 68
    | .field obj offset => if offset = 2 ∧ obj = 128 then 64 else 0
  mark := fun _ => 1
  klass := fun _ => ⟨4, [2], false, none, 1⟩
  cards := fun _ _ => .dirty
  gen0 := []
  transNew := ⟨[⟨0, 7, false, false, .collectable, [64, 68]⟩], 1, 0, 1⟩
  old := [128]
  oldTop := 132
  perm := []

private theorem pairHeap_wellFormed : WellFormed pairCollector pairHeap where
  nonNull := by decide
  edenAbove := by decide
  edenSpan := by decide
  edenBelow := by decide
  oldAbove := by decide
  permAbove := by decide
  topInside := by decide
  inEden := by decide
  gen0 := by decide
  otherEdens := by
    intro i other a among
    rcases i with - | i
    · exact absurd rfl other
    · cases among
  old := by decide
  perm := by decide
  sized := by decide
  unmarked := by decide
  pointers := by
    intro s has
    cases has with
    | root bound => exact fun _ => mem_cons_self
    | weakRoot bound => exact fun _ => mem_cons_of_mem 64 mem_cons_self
    | @field obj offset among slot =>
      cases mem_singleton.mp slot
      revert obj
      decide
  oopMaps := by
    intro a _ reference
    cases reference

theorem pair_evacuated :
    ∃ σ after moved, collectTransEden pairCollector false true pairHeap = some (.finished σ after) ∧
      Evacuated pairCollector pairHeap after moved ∧ 64 ∈ moved.map Prod.fst := by
  have cards : CardsMarked pairCollector pairHeap := by
    intro region objects listed obj among offset slot nonNull young clean
    cases clean
  obtain ⟨σ, after, collects, evacuates⟩ := collectTransEden_evacuates pairHeap_wellFormed rfl rfl
    (by decide) cards
  have success : (collectTransEden pairCollector false true pairHeap).map (fun
      | .returned _ => true
      | .finished σ _ => σ.promotionFailed) = some false := by decide +kernel
  rw [collects] at success
  obtain ⟨moved, evacuated⟩ := evacuates (some.inj success)
  have held : Reachable pairCollector pairHeap (pairHeap.words (.root 0)) :=
    .direct (.root (by decide)) (by decide)
  exact ⟨σ, after, moved, collects, evacuated, evacuated.reached _ held⟩

end EdenEvacuation
