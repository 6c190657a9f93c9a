import TransGC.ScanReferences

/-!
# What the scan of an eden reaches

The strongly reachable objects of the eden are those that a chain of ordinary references leads
to, from a root or from outside the eden. When the followers closure returns for the first time
all of them are forwarded; when the collection is over, no slot points to an object that moved.
-/
namespace EdenReachability
open EdenTable MarkWord ObjectHeap ObjectMoves EdenScan ScanSteps ScanInvariant ScanClosures ScanDrain
  ScanPhases ScanReferences List

/-- The objects that the collection of the eden `c.id` does not move. -/
def outsideObjects (c : Collector) (heap : Heap) : List Nat :=
  heap.gen0 ++ ((range heap.transNew.maxTransEden).filter (· ≠ c.id)).flatMap heap.edenObjects ++
    heap.old ++ heap.perm

/-- The roots, and the ordinary references of the objects outside the eden. -/
inductive StrongRoot (c : Collector) (heap : Heap) : Slot → Prop
  | root {i : Nat} (bound : i < c.rootCount) : StrongRoot c heap (.root i)
  | field {obj offset : Nat} (outside : obj ∈ outsideObjects c heap)
      (strong : offset ∈ (heap.klass obj).strongSlots) : StrongRoot c heap (.field obj offset)

inductive Reachable (c : Collector) (heap : Heap) : Nat → Prop
  | direct {s : Slot} (held : StrongRoot c heap s)
      (inside : heap.words s ∈ heap.edenObjects c.id) : Reachable c heap (heap.words s)
  | step {a offset : Nat} (reached : Reachable c heap a)
      (strong : offset ∈ (heap.klass a).strongSlots)
      (inside : heap.words (.field a offset) ∈ heap.edenObjects c.id) :
      Reachable c heap (heap.words (.field a offset))

/-- Every old or permanent slot that points into gen0 or gen1 lies on a card that is not clean. -/
def CardsMarked (c : Collector) (heap : Heap) : Prop :=
  ∀ region objects, (region, objects) ∈ [(Region.old, heap.old), (Region.perm, heap.perm)] →
    ∀ obj ∈ objects, ∀ offset ∈ (heap.klass obj).slots,
      heap.words (.field obj offset) ≠ 0 → heap.words (.field obj offset) < c.start .old →
        heap.cards region (cardFor (obj + offset)) ≠ .clean

/-- No eden but the collected one is in state Collecting while the roots are scanned. -/
def OnlyCollecting (c : Collector) (heap : Heap) : Prop :=
  ∀ id eden, heap.transNew.transEdens[id]? = some eden → (eden.state = .collecting ↔ id = c.id)

/-- The collected eden is in state Collecting. -/
def Collecting (c : Collector) (heap : Heap) : Prop :=
  ∀ eden, heap.transNew.transEdens[c.id]? = some eden → eden.state = .collecting

variable {c : Collector} {start : Heap} {Good : Nat → Prop} {loops : List LoopStep}
  {σ τ υ : Scan} {a obj offset : Nat} {s : Slot}

theorem OnlyCollecting.collecting (only : OnlyCollecting c start) : Collecting c start :=
  fun eden entry => (only c.id eden entry).mpr rfl

theorem Reachable.among (reached : Reachable c start a) : a ∈ start.edenObjects c.id := by
  cases reached with
  | direct held inside => exact inside
  | step reached strong inside => exact inside

theorem mem_outsideObjects :
    obj ∈ outsideObjects c start ↔ obj ∈ start.gen0 ∨
      (∃ id, id < start.transNew.maxTransEden ∧ id ≠ c.id ∧ obj ∈ start.edenObjects id) ∨
      obj ∈ start.old ∨ obj ∈ start.perm := by
  simp [outsideObjects, and_assoc]

theorem edenObjects_subset {id : Nat} (among : obj ∈ start.edenObjects id) :
    id < start.transNew.maxTransEden ∧ obj ∈ allObjects start := by
  unfold Heap.edenObjects at among
  cases found : start.transNew.transEdens[id]? with
  | none => simp [found] at among
  | some eden =>
    have here : obj ∈ eden.objects := by simpa [found] using among
    have inTable := mem_of_getElem? found
    refine ⟨(List.getElem?_eq_some_iff.mp found).1, ?_⟩
    unfold allObjects
    simp only [mem_append, mem_flatMap]
    exact .inl (.inl (.inr ⟨eden, inTable, here⟩))

theorem allObjects_of_outside (outside : obj ∈ outsideObjects c start) : obj ∈ allObjects start := by
  rcases mem_outsideObjects.mp outside with young | ⟨id, -, -, eden⟩ | old | perm
  · simp [allObjects, young]
  · exact (edenObjects_subset eden).2
  · simp [allObjects, old]
  · simp [allObjects, perm]

theorem not_inEden (apart : obj < c.edenBottom c.id ∨ c.edenEnd c.id ≤ obj) :
    c.inEden obj = false := by
  simp only [Collector.inEden, Bool.and_eq_false_iff, decide_eq_false_iff_not]
  omega

/-- The slots outside the eden can be followed from the start on. -/
theorem visible_of_outside (formed : WellFormed c start) (outside : obj ∈ outsideObjects c start)
    (offset : Nat) : Visible c start start (.field obj offset) ∧ c.inEden obj = false := by
  have above := formed.edenAbove
  have span := formed.edenSpan
  have below := formed.edenBelow
  have top := formed.oldAbove
  have inside := formed.topInside
  have permAbove := formed.permAbove
  have place : (obj < start.oldTop ∨ c.oldEnd ≤ obj) ∧ c.inEden obj = false := by
    rcases mem_outsideObjects.mp outside with young | ⟨id, -, other, eden⟩ | old | perm
    · have := formed.gen0 obj young
      exact ⟨.inl (by omega), not_inEden (by omega)⟩
    · obtain ⟨-, low, apart⟩ := formed.otherEdens id other obj eden
      exact ⟨.inl (by omega), apart⟩
    · obtain ⟨high, low⟩ := formed.old obj old
      exact ⟨.inl low, not_inEden (by omega)⟩
    · have := formed.perm obj perm
      exact ⟨.inr (by omega), not_inEden (by omega)⟩
  refine ⟨⟨place.1, fun among => ?_⟩, place.2⟩
  rw [formed.inEden obj among] at place
  cases place.2

theorem kept_of_outside (formed : WellFormed c start) (outside : obj ∈ outsideObjects c start) :
    Kept c start obj := (visible_of_outside formed outside 0).1.1

theorem mark_of_outside (setup : Setup c start Good) {heap : Heap} {moved : List (Nat × Nat)}
    (valid : Valid c start Good heap moved) (outside : obj ∈ outsideObjects c start) :
    heap.mark obj = start.mark obj := by
  refine valid.mark obj (kept_of_outside setup.formed outside) fun good => ?_
  have apart := (visible_of_outside setup.formed outside 0).2
  rw [setup.formed.inEden obj (setup.closed.eden obj good)] at apart
  cases apart

/-- The objects of the other edens that are scanned lie outside the collected eden. -/
theorem outside_of_otherEden (collecting : Collecting c start) (among : obj ∈ otherEdenObjects start) :
    obj ∈ outsideObjects c start := by
  unfold otherEdenObjects TransNewGeneration.spaceIterateWithSomeExcluded at among
  simp only [mem_flatMap, mem_filter, mem_range] at among
  obtain ⟨id, ⟨bound, excluded⟩, inside⟩ := among
  refine mem_outsideObjects.mpr (.inr (.inl ⟨id, bound, ?_, inside⟩))
  rintro rfl
  have found := getElem?_eq_getElem bound
  rw [found] at excluded
  simp [collecting _ found] at excluded

/-- If the collected eden is the only one in state Collecting, all others are scanned. -/
theorem otherEden_of_outside {id : Nat} (only : OnlyCollecting c start)
    (bound : id < start.transNew.maxTransEden) (other : id ≠ c.id) (inside : obj ∈ start.edenObjects id) :
    obj ∈ otherEdenObjects start := by
  unfold otherEdenObjects TransNewGeneration.spaceIterateWithSomeExcluded
  simp only [mem_flatMap, mem_filter, mem_range]
  refine ⟨id, ⟨bound, ?_⟩, inside⟩
  have found := getElem?_eq_getElem bound
  rw [found]
  simpa using fun collecting => other ((only _ _ found).mp collecting)

/-! ### Every object of the eden may be copied -/

theorem setup_eden (formed : WellFormed c start) : Setup c start (· ∈ start.edenObjects c.id) where
  formed := formed
  closed :=
    ⟨fun _ among => among,
      fun _ among _ slot => formed.pointers _ (.field (edenObjects_subset among).2 slot)⟩

/-- The scan of the roots comes to good objects only if the roots and the slots outside the eden
point to good ones. -/
theorem rootsGood_of_slots (formed : WellFormed c start) (collecting : Collecting c start)
    (roots : ∀ i < c.rootCount, GoodSlot c Good start (.root i))
    (fields : ∀ obj ∈ outsideObjects c start, ∀ offset ∈ (start.klass obj).slots,
      GoodSlot c Good start (.field obj offset)) : RootsGood c start Good := by
  refine ⟨roots, fun obj among => ?_⟩
  have outside : obj ∈ outsideObjects c start := by
    simp only [rootObjects, mem_append] at among
    rcases among with ((perm | gen0) | edens) | old
    · exact mem_outsideObjects.mpr (.inr (.inr (.inr perm)))
    · exact mem_outsideObjects.mpr (.inl gen0)
    · exact outside_of_otherEden collecting edens
    · exact mem_outsideObjects.mpr (.inr (.inr (.inl old)))
  exact ⟨ready_of_goodSlots (fun offset => (visible_of_outside formed outside offset).1)
    (fields _ outside), rfl⟩

theorem rootsGood_eden (formed : WellFormed c start) (collecting : Collecting c start) :
    RootsGood c start (· ∈ start.edenObjects c.id) :=
  rootsGood_of_slots formed collecting (fun _ bound => formed.pointers _ (.root bound))
    fun _ outside _ slot => formed.pointers _ (.field (allObjects_of_outside outside) slot)

/-! ### Slots while references are still discovered -/

theorem early_carries (setup : Setup c start Good) (steady : .stopDiscovery ∉ loops)
    (steps : Steps c start Good loops (startScan start) τ) (visible : Visible c start start s) :
    Carries c start τ.toHeap (start.words s) (τ.words s) := by
  refine (steps_keep_slot (P := fun υ => υ.discovering = true ∧
    Carries c start υ.toHeap (start.words s) (υ.words s)) setup (.start_inv setup.formed) steps ?_
    visible ⟨rfl, .inl rfl⟩).2
  rintro υ ω inv step visible ⟨early, carries⟩
  obtain ⟨moved, valid⟩ := inv.valid
  obtain ⟨more, after⟩ := step.valid setup valid
  have stable : ∀ b ∈ start.edenObjects c.id, υ.isForwarded b = true → ω.mark b = υ.mark b :=
    fun b among marked => step.mark_of_forwarded setup.formed valid (setup.formed.inEden b among) marked
  refine ⟨(steps_discovering steady (.single step)).trans early, ?_⟩
  cases step.evolves setup valid visible with
  | same kept =>
    rw [kept]
    exact carries.mono stable
  | redirected good marked moved =>
    rw [moved]
    exact (carries.mono stable).redirect setup.formed after (setup.closed.eden _ good) marked
  | cleared weak late dead zero =>
    rw [early] at late
    cases late

/-- A settled slot that carries an object of the eden shows that the object is forwarded. -/
theorem forwarded_of_settled (formed : WellFormed c start) {value : Nat}
    (carries : Carries c start σ.toHeap a value) (among : a ∈ start.edenObjects c.id)
    (settled : Settled c σ.toHeap value) : σ.isForwarded a = true := by
  rcases carries with rfl | ⟨-, marked, -⟩
  · rcases settled with outside | ⟨marked, -⟩
    · rw [formed.inEden _ among] at outside
      cases outside
    · exact marked
  · exact marked

theorem referent_not_strong {klass : Klass} (reference : klass.reference.isSome = true)
    (oopMap : referentOffset ∉ klass.oops) : referentOffset ∉ klass.strongSlots := by
  intro strong
  rw [Klass.strongSlots, if_pos reference] at strong
  rcases mem_append.mp strong with ordinary | next
  · exact oopMap ordinary
  · cases mem_singleton.mp next

/-- The referent of a discovered reference is not an ordinary slot of it. -/
theorem settled_of_strong (inv : Inv c start Good σ) (handled : Handled c σ (.field obj offset))
    (strong : offset ∈ (σ.klass obj).strongSlots)
    (oopMap : (σ.klass obj).reference.isSome = true → referentOffset ∉ (σ.klass obj).oops) :
    Settled c σ.toHeap (σ.words (.field obj offset)) := by
  rcases handled with settled | ⟨kind, r, same, among⟩
  · exact settled
  · cases same
    have reference : (σ.klass obj).reference.isSome = true := by
      rw [(inv.lists kind obj among).ofKind]
      rfl
    exact absurd strong (referent_not_strong reference (oopMap reference))

/-! ### The first round of followers -/

/-- The state in which the followers closure returns for the first time. -/
structure Traced (c : Collector) (start : Heap) (Good : Nat → Prop) (σ : Scan) : Prop where
  steps : Steps c start Good [.pop, .advance] (startScan start) σ
  resting : Resting c start Good σ
  caughtUp : σ.savedMark = σ.old.length
  roots : RootsDone c start σ

theorem rootsDone_later {more : List LoopStep} (setup : Setup c start Good)
    (good : RootsGood c start Good) (first : Steps c start Good loops (startScan start) σ)
    (later : Steps c start Good more σ τ) (done : RootsDone c start σ) : RootsDone c start τ := by
  have inv₀ : Inv c start Good (startScan start) := .start_inv setup.formed
  have inv := inv₀.steps setup first
  refine ⟨fun i bound => steps_settled (s := .root i) setup inv later trivial (done.roots i bound),
    fun {obj offset} covered slot => ?_⟩
  exact steps_handled setup inv later
    (steps_visible setup inv₀ first ((good.objects obj covered.among).ready.visible offset))
    (done.objects covered slot)

theorem trace_ends (setup : Setup c start Good) (good : RootsGood c start Good) :
    ∃ σ, evacuateFollowers c (genProcessStrongRoots c (startScan start)) = some σ ∧
      Traced c start Good σ := by
  obtain ⟨first, quiet, roots⟩ := genProcessStrongRoots_done setup good
  have inv₀ : Inv c start Good (startScan start) := .start_inv setup.formed
  have inv₁ := inv₀.steps setup first
  have swept : Swept c start (genProcessStrongRoots c (startScan start)) := by
    intro k obj above below
    rw [steps_savedMark (by simp) first] at below
    exact absurd below (Nat.not_lt.mpr above)
  obtain ⟨σ, ends, later, resting, caughtUp⟩ := evacuateFollowers_ends setup ⟨inv₁, quiet, swept⟩
  exact ⟨σ, ends, .trans (steps_more (by simp) first) later, resting, caughtUp,
    rootsDone_later setup good first later roots⟩

/-- If the cards are marked, the scan of the roots covers every outer slot into the eden. -/
theorem handled_of_outside (formed : WellFormed c start) (only : OnlyCollecting c start)
    (cards : CardsMarked c start) (done : RootsDone c start σ)
    (outside : obj ∈ outsideObjects c start) (slot : offset ∈ (start.klass obj).slots)
    (points : c.inEden (start.words (.field obj offset)) = true) :
    Handled c σ (.field obj offset) := by
  have young : start.words (.field obj offset) < c.start .old := by
    have below := formed.edenBelow
    simp only [Collector.inEden, Bool.and_eq_true, decide_eq_true_eq] at points
    omega
  have marked := fun region objects listed among =>
    cards region objects listed obj among offset slot (formed.ne_zero points) young
  refine done.objects ?_ slot
  rcases mem_outsideObjects.mp outside with gen0 | ⟨id, bound, other, inside⟩ | old | perm
  · exact .young (mem_append_left _ gen0)
  · exact .young (mem_append_right _ (otherEden_of_outside only bound other inside))
  · exact .old old (marked .old _ (by simp) old)
  · exact .perm perm (marked .perm _ (by simp) perm)

/-- Copies are scanned by the time the followers closure returns. -/
theorem done_of_moved {moved : List (Nat × Nat)} {target : Nat} (resting : Resting c start Good σ)
    (caughtUp : σ.savedMark = σ.old.length) (valid : Valid c start Good σ.toHeap moved)
    (pair : (a, target) ∈ moved) : Done c σ target := by
  have among : target ∈ moved.map Prod.snd := mem_map_of_mem pair
  obtain ⟨k, found⟩ := getElem?_of_mem among
  have at_k : σ.old[start.old.length + k]? = some target := by
    rw [valid.old, getElem?_append_right (Nat.le_add_right _ _), Nat.add_sub_cancel_left]
    exact found
  refine resting.swept _ target (Nat.le_add_right _ _) ?_ at_k
  rw [caughtUp]
  exact (List.getElem?_eq_some_iff.mp at_k).1

theorem forwarded_of_strongRoot (setup : Setup c start Good) (only : OnlyCollecting c start)
    (cards : CardsMarked c start) (traced : Traced c start Good σ) (held : StrongRoot c start s)
    (inside : start.words s ∈ start.edenObjects c.id) : σ.isForwarded (start.words s) = true := by
  have inv := traced.resting.inv
  obtain ⟨moved, valid⟩ := inv.valid
  cases held with
  | @root i bound =>
    have carries := early_carries (s := .root i) setup (by simp) traced.steps trivial
    exact forwarded_of_settled setup.formed carries inside (traced.roots.roots i bound)
  | @field obj offset outside strong =>
    have visible := (visible_of_outside setup.formed outside offset).1
    have carries := early_carries setup (by simp) traced.steps visible
    have same : σ.klass obj = start.klass obj := by
      refine steps_klass setup (.start_inv setup.formed) traced.steps ?_
      exact fun offset => (visible_of_outside setup.formed outside offset).1
    have handled := handled_of_outside setup.formed only cards traced.roots outside
      (strongSlots_subset strong) (setup.formed.inEden _ inside)
    refine forwarded_of_settled setup.formed carries inside (settled_of_strong inv handled ?_ ?_)
    · rwa [same]
    · rw [same]
      exact setup.formed.oopMaps obj (allObjects_of_outside outside)

theorem forwarded_of_reachable (setup : Setup c start Good) (only : OnlyCollecting c start)
    (cards : CardsMarked c start) (traced : Traced c start Good σ) (reached : Reachable c start a) :
    σ.isForwarded a = true := by
  have inv := traced.resting.inv
  obtain ⟨moved, valid⟩ := inv.valid
  induction reached with
  | direct held inside => exact forwarded_of_strongRoot setup only cards traced held inside
  | @step a offset reached strong inside ih =>
    have among := reached.among
    have low := setup.formed.eden_lt_top among
    have oopMap := setup.formed.oopMaps a (edenObjects_subset among).2
    rcases valid.forwarded a among ih with ⟨target, pair⟩ | ⟨-, pointer⟩
    · -- the copy of `a` was scanned
      have done := done_of_moved traced.resting traced.caughtUp valid pair
      have klass := valid.copyKlass _ pair
      have handled := done offset (by rw [klass]; exact strongSlots_subset strong)
      refine forwarded_of_settled setup.formed (valid.copyWords _ pair offset) inside
        (settled_of_strong inv handled ?_ ?_)
      · rwa [klass]
      · rwa [klass]
    · -- `a` stayed where it was and was scanned in place
      have itself : SelfForwarded c σ.toHeap a := ⟨ih, forwardee_of_mark pointer⟩
      have klass := valid.klass a (.inl low)
      have done : Done c σ a := by
        rcases traced.resting.quiet.covered a among itself with stacked | exception | done
        · rw [traced.resting.quiet.stack] at stacked
          cases stacked
        · cases exception
        · exact done
      have handled := done offset (by rw [klass]; exact strongSlots_subset strong)
      have settled := settled_of_strong inv handled (by rwa [klass]) (by rwa [klass])
      rcases valid.words (.field a offset) (.inl low) with carries | ⟨⟨referent, -, -, typed⟩, -⟩
      · exact forwarded_of_settled setup.formed carries inside settled
      · have reference : (start.klass a).reference.isSome = true := by
          rcases typed with weak | ⟨soft, -⟩
          · rw [weak]
            rfl
          · rw [soft]
            rfl
        rw [referent] at strong
        exact absurd strong (referent_not_strong reference (oopMap reference))

/-! ### The end of the scan -/

/-- A slot whose target has been forwarded is not cleared any more. -/
theorem carries_of_forwarded (setup : Setup c start Good) (inv : Inv c start Good σ)
    (steps : Steps c start Good loops σ τ) (visible : Visible c start σ.toHeap s)
    (among : a ∈ start.edenObjects c.id) (marked : σ.isForwarded a = true)
    (carries : Carries c start σ.toHeap a (σ.words s)) :
    Carries c start τ.toHeap a (τ.words s) := by
  refine (steps_keep_slot (P := fun υ => υ.isForwarded a = true ∧
    Carries c start υ.toHeap a (υ.words s)) setup inv steps ?_ visible
    ⟨marked, carries⟩).2
  rintro υ ω inv step visible ⟨marked, carries⟩
  obtain ⟨moved, valid⟩ := inv.valid
  obtain ⟨more, after⟩ := step.valid setup valid
  have stable : ∀ b ∈ start.edenObjects c.id, υ.isForwarded b = true → ω.mark b = υ.mark b :=
    fun b among marked => step.mark_of_forwarded setup.formed valid (setup.formed.inEden b among) marked
  refine ⟨(step.forwarded setup.formed valid (setup.formed.inEden a among) marked).1, ?_⟩
  cases step.evolves setup valid visible with
  | same kept =>
    rw [kept]
    exact carries.mono stable
  | redirected good black moved =>
    rw [moved]
    exact (carries.mono stable).redirect setup.formed after (setup.closed.eden _ good) black
  | cleared weak late dead zero =>
    -- the slot holds `a` or its new address, and neither counts as dead
    have alive : υ.words s ≠ 0 ∧ (c.inEden (υ.words s) = true → υ.isForwarded (υ.words s) = true) := by
      rcases carries with same | ⟨-, -, same⟩
      · rw [same]
        exact ⟨setup.formed.ne_zero (setup.formed.inEden a among), fun _ => marked⟩
      · rw [same]
        refine ⟨valid.forwardee_ne_zero setup.formed among marked, fun inside => ?_⟩
        rcases valid.settled_forwardee setup.formed among marked with outside | ⟨black, -⟩
        · rw [inside] at outside
          cases outside
        · exact black
    rcases dead with null | ⟨inside, white⟩
    · exact absurd null alive.1
    · rw [alive.2 inside] at white
      cases white

/-- The slots that the collection of the eden leaves in place. -/
inductive OutsideSlot (c : Collector) (heap : Heap) : Slot → Prop
  | root {i : Nat} (bound : i < c.rootCount) : OutsideSlot c heap (.root i)
  | weakRoot {i : Nat} (bound : i < c.weakRootCount) : OutsideSlot c heap (.weakRoot i)
  | field {obj offset : Nat} (outside : obj ∈ outsideObjects c heap)
      (slot : offset ∈ (heap.klass obj).slots) : OutsideSlot c heap (.field obj offset)

theorem OutsideSlot.visible (formed : WellFormed c start) (outside : OutsideSlot c start s) :
    Visible c start start s := by
  cases outside with
  | root bound => trivial
  | weakRoot bound => trivial
  | field outside slot => exact (visible_of_outside formed outside _).1

theorem OutsideSlot.inPlace (formed : WellFormed c start) (outside : OutsideSlot c start s) :
    InPlace (Kept c start) s := by
  cases outside with
  | root bound => trivial
  | weakRoot bound => trivial
  | field outside slot => exact kept_of_outside formed outside

/-- No slot outside the eden and no slot of a copy points to an object that has moved, and a slot
that pointed to a reachable object still does. -/
structure Ended (c : Collector) (start : Heap) (Good : Nat → Prop) (τ : Scan) : Prop where
  inv : Inv c start Good τ
  slots : ∀ s, OutsideSlot c start s → Settled c τ.toHeap (τ.words s)
  copies : ∀ moved, Valid c start Good τ.toHeap moved → ∀ p ∈ moved,
    ∀ offset ∈ (start.klass p.1).slots, Settled c τ.toHeap (τ.words (.field p.2 offset))
  reached : ∀ a, Reachable c start a → τ.isForwarded a = true
  held : ∀ s, OutsideSlot c start s → Reachable c start (start.words s) →
    Carries c start τ.toHeap (start.words s) (τ.words s)

/-- After the discovered references have been processed no slot is pending. -/
theorem settled_of_finished (finished : Finished c start Good σ τ)
    (handled : Handled c τ s) : Settled c τ.toHeap (τ.words s) := by
  rcases handled with settled | ⟨kind, r, rfl, among⟩
  · exact settled
  · exact finished.listed kind r among

/-- The scan up to the first return of the followers closure, and the reference processing. -/
theorem evacuateEden_finishes (setup : Setup c start Good) (good : RootsGood c start Good) :
    ∃ σ τ, evacuateEden c start = some τ ∧ Traced c start Good σ ∧
      Finished c start Good { σ with discovering := false } τ := by
  obtain ⟨σ, traces, traced⟩ := trace_ends setup good
  obtain ⟨τ, processes, finished⟩ := processDiscoveredReferences_done setup traced.resting
    fun i bound => steps_goodSlot (s := .weakRoot i) setup (.start_inv setup.formed) traced.steps
      trivial (setup.formed.pointers _ (.weakRoot bound))
  exact ⟨σ, τ, by rw [evacuateEden, traces, Option.bind_some, processes], traced, finished⟩

theorem steps_of_finished (finished : Finished c start Good { σ with discovering := false } τ) :
    Steps c start Good [.pop, .advance, .stopDiscovery] σ τ := by
  have stops : Step c start Good [.pop, .advance, .stopDiscovery] σ
      { σ with discovering := false } := .stopDiscovery (by simp)
  exact .head stops (steps_more (by simp) finished.steps)

theorem evacuateEden_ends (formed : WellFormed c start) (only : OnlyCollecting c start)
    (cards : CardsMarked c start) :
    ∃ τ, evacuateEden c start = some τ ∧ Ended c start (· ∈ start.edenObjects c.id) τ := by
  have setup := setup_eden formed
  have inv₀ : Inv c start (· ∈ start.edenObjects c.id) (startScan start) := .start_inv formed
  obtain ⟨σ, τ, evacuates, traced, finished⟩ :=
    evacuateEden_finishes setup (rootsGood_eden formed only.collecting)
  have later := steps_of_finished finished
  have whole := (steps_more (by simp) traced.steps).trans later
  have inv := traced.resting.inv
  have visible : ∀ {s}, OutsideSlot c start s → Visible c start σ.toHeap s := fun outside =>
    steps_visible setup inv₀ traced.steps (outside.visible formed)
  have reached : ∀ a, Reachable c start a → σ.isForwarded a = true :=
    fun a => forwarded_of_reachable setup only cards traced
  refine ⟨τ, evacuates, finished.resting.inv,
    fun s outside => ?_, ?_, fun a path => ?_, fun s outside path => ?_⟩
  · cases points : c.inEden (start.words s) with
    | false => exact steps_settled setup inv₀ whole (outside.visible formed) (.inl points)
    | true =>
      cases outside with
      | root bound =>
        exact steps_settled (s := .root _) setup inv later trivial
          (traced.roots.roots _ bound)
      | weakRoot bound => exact finished.handles _ bound
      | field outside slot =>
        have handled := handled_of_outside formed only cards traced.roots outside slot points
        exact settled_of_finished finished
          (steps_handled setup inv later (visible (.field outside slot)) handled)
  · intro moved valid p pair offset slot
    have done := done_of_moved finished.resting finished.caughtUp valid pair
    refine settled_of_finished finished (done offset ?_)
    rwa [valid.copyKlass p pair]
  · refine steps_keep (P := fun υ => υ.isForwarded a = true) setup inv later ?_ (reached a path)
    intro υ ω inv step marked
    obtain ⟨moved, valid⟩ := inv.valid
    exact (step.forwarded formed valid (formed.inEden a path.among) marked).1
  · have early := early_carries setup (by simp) traced.steps (outside.visible formed)
    exact carries_of_forwarded setup inv later (visible outside) path.among
      (reached _ path) early

end EdenReachability
