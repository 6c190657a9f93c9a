import TransGC.ScanDrain

/-!
# The scan of the roots and of what was promoted

After `gen_process_strong_roots` every slot it looks at is settled or pending, and every
object forwarded to itself has been scanned. The followers closure then scans the promoted
objects in the order of their promotion; it ends because no more objects can be promoted
than the eden holds.
-/
namespace ScanPhases
open EdenTable MarkWord ObjectHeap EdenScan ScanSteps ScanInvariant ScanClosures ScanDrain List Option

variable {c : Collector} {start : Heap} {Good : Nat → Prop} {loops : List LoopStep}
  {σ τ : Scan} {a obj : Nat} {s : Slot}

/-! ### Lists of objects -/

/-- An object of the heap at the start, ready for a closure and with the class it had. -/
structure Prepared (c : Collector) (start : Heap) (Good : Nat → Prop) (σ : Scan) (obj : Nat) :
    Prop where
  ready : Ready c start Good (fun _ => True) σ obj
  klass : σ.klass obj = start.klass obj

theorem Prepared.steps (setup : Setup c start Good) (steady : .stopDiscovery ∉ loops)
    (inv : Inv c start Good σ) (steps : Steps c start Good loops σ τ)
    (prepared : Prepared c start Good σ obj) : Prepared c start Good τ obj where
  ready := steps_ready setup steady inv steps prepared.ready
  klass := (steps_klass setup inv steps prepared.ready.visible).trans prepared.klass

/-- What the scan of a list of objects leaves behind. -/
structure Scanned (c : Collector) (start : Heap) (Good : Nat → Prop)
    (covers : Nat → Slot → Prop) (objects : List Nat) (σ τ : Scan) : Prop where
  steps : Steps c start Good [.pop] σ τ
  quiet : Quiet c start τ
  handled : ∀ obj ∈ objects, ∀ offset ∈ (start.klass obj).slots, covers obj (.field obj offset) →
    Handled c τ (.field obj offset)

theorem fold_scanned (setup : Setup c start Good) {covers : Nat → Slot → Prop}
    {f : Scan → Nat → Scan} (objects : List Nat)
    (each : ∀ {σ obj}, Inv c start Good σ → Quiet c start σ →
      Prepared c start Good σ obj → Scanned c start Good covers [obj] σ (f σ obj))
    (inv : Inv c start Good σ) (quiet : Quiet c start σ)
    (objectsReady : ∀ obj ∈ objects, Prepared c start Good σ obj) :
    Scanned c start Good covers objects σ (objects.foldl f σ) := by
  induction objects generalizing σ with
  | nil => exact ⟨.refl, quiet, fun _ among => by cases among⟩
  | cons obj objects ih =>
    have own := objectsReady obj mem_cons_self
    have first := each inv quiet own
    have after := inv.steps setup first.steps
    have rest := ih after first.quiet fun other among =>
      (objectsReady other (mem_cons_of_mem obj among)).steps setup (by simp) inv first.steps
    refine ⟨.trans first.steps rest.steps, rest.quiet, fun other among offset slot covered => ?_⟩
    rcases mem_cons.mp among with rfl | later
    · exact steps_handled setup after rest.steps
        (steps_visible setup inv first.steps (own.ready.visible offset))
        (first.handled other (by simp) offset slot covered)
    · exact rest.handled other later offset slot covered

theorem scanned_of_scans (setup : Setup c start Good) {covers : Nat → Slot → Prop}
    {doOop : Scan → Slot → Scan}
    (scans : Scans c start Good [.pop] (Quiet c start) (covers obj) doOop)
    (inv : Inv c start Good σ) (quiet : Quiet c start σ)
    (prepared : Prepared c start Good σ obj) :
    Scanned c start Good covers [obj] σ (oopIterate c doOop σ obj) := by
  have ready : Ready c start Good (covers obj) σ obj :=
    ⟨prepared.ready.visible, fun offset slot _ => prepared.ready.strong offset slot trivial,
      fun reference _ => prepared.ready.referent reference (.inr trivial)⟩
  obtain ⟨steps, quiet, handled⟩ := scans.oopIterate setup ready inv quiet
  refine ⟨steps, quiet, fun other among offset slot covered => ?_⟩
  obtain rfl := mem_singleton.mp among
  rw [← prepared.klass] at slot
  exact handled offset slot covered

theorem oopIterateSpace_scanned (setup : Setup c start Good) (region : Region)
    (objects : List Nat) (inv : Inv c start Good σ) (quiet : Quiet c start σ)
    (objectsReady : ∀ obj ∈ objects, Prepared c start Good σ obj) :
    Scanned c start Good (fun _ _ => True) objects σ (oopIterateSpace c region objects σ) :=
  fold_scanned setup objects
    (fun inv quiet prepared =>
      scanned_of_scans setup (scanSlot_scans setup (some region)) inv quiet prepared)
    inv quiet objectsReady

theorem youngerRefsIterate_scanned (setup : Setup c start Good) {region : Region}
    (above : c.edenEnd c.id ≤ c.start region) (objects : List Nat) (inv : Inv c start Good σ)
    (quiet : Quiet c start σ) (objectsReady : ∀ obj ∈ objects, Prepared c start Good σ obj) :
    Scanned c start Good (fun obj => OnCards (σ.cards region) (start.klass obj).isArray) objects σ
      (youngerRefsIterate c region objects σ) := by
  refine fold_scanned setup objects (fun inv quiet prepared => ?_) inv quiet objectsReady
  rw [prepared.klass]
  exact scanned_of_scans setup (filtered_scans setup above _ _) inv quiet prepared

/-! ### Strong roots -/

theorem otherEdenObjects_of_transNew {heap heap' : Heap} (same : heap.transNew = heap'.transNew) :
    otherEdenObjects heap = otherEdenObjects heap' := by
  have objects : heap.edenObjects = heap'.edenObjects := by
    funext id
    rw [Heap.edenObjects, Heap.edenObjects, same]
  rw [otherEdenObjects, otherEdenObjects, same, objects]

/-- The objects that the scan of the roots goes through. -/
def rootObjects (start : Heap) : List Nat :=
  start.perm ++ start.gen0 ++ otherEdenObjects start ++ start.old

/-- The slots of these objects that it is sure to look at. -/
inductive Covered (start : Heap) (obj offset : Nat) : Prop
  | young (among : obj ∈ start.gen0 ++ otherEdenObjects start)
  | perm (among : obj ∈ start.perm) (marked : start.cards .perm (cardFor (obj + offset)) ≠ .clean)
  | old (among : obj ∈ start.old) (marked : start.cards .old (cardFor (obj + offset)) ≠ .clean)

theorem Covered.among {offset : Nat} (covered : Covered start obj offset) :
    obj ∈ rootObjects start := by
  cases covered <;> grind [rootObjects]

/-- Everything the scan of the roots follows is good. -/
structure RootsGood (c : Collector) (start : Heap) (Good : Nat → Prop) : Prop where
  roots : ∀ i < c.rootCount, GoodSlot c Good start (.root i)
  objects : ∀ obj ∈ rootObjects start, Prepared c start Good (startScan start) obj

/-- Everything the scan of the roots looks at has been dealt with. -/
structure RootsDone (c : Collector) (start : Heap) (σ : Scan) : Prop where
  roots : ∀ i < c.rootCount, Settled c σ.toHeap (σ.words (.root i))
  objects : ∀ {obj offset}, Covered start obj offset → offset ∈ (start.klass obj).slots →
    Handled c σ (.field obj offset)

theorem quiet_start (formed : WellFormed c start) : Quiet c start (startScan start) where
  stack := rfl
  covered := by
    intro a among itself
    have black : start.isForwarded a = true := itself.1
    rw [formed.unmarked a among] at black
    cases black

theorem steps_savedMark (steady : .advance ∉ loops) (steps : Steps c start Good loops σ τ) :
    τ.savedMark = σ.savedMark := by
  induction steps with
  | refl => rfl
  | tail _ step ih =>
    rw [← ih]
    cases step with
    | advance allowed bound => exact absurd allowed steady
    | _ => rfl

theorem steps_marks (steps : Steps c start Good loops σ τ) : Marks σ.cards τ.cards := by
  induction steps with
  | refl => exact .refl _
  | tail _ step ih =>
    cases step with
    | card marks => exact fun region card marked => marks region card (ih region card marked)
    | _ => exact ih

variable (setup : Setup c start Good)
include setup

/-- What was handled by the scan of a list of objects stays handled. -/
theorem Scanned.handled_later {covers : Nat → Slot → Prop} {objects : List Nat} {υ : Scan}
    (inv : Inv c start Good σ)
    (prepared : ∀ obj ∈ objects, Prepared c start Good σ obj)
    (scanned : Scanned c start Good covers objects σ τ) (later : Steps c start Good loops τ υ)
    (among : obj ∈ objects) {offset : Nat} (slot : offset ∈ (start.klass obj).slots)
    (covered : covers obj (.field obj offset)) : Handled c υ (.field obj offset) :=
  steps_handled setup (inv.steps setup scanned.steps) later
    (steps_visible setup inv scanned.steps ((prepared obj among).ready.visible offset))
    (scanned.handled obj among offset slot covered)

theorem processStrongRoots_done (good : RootsGood c start Good) :
    Steps c start Good [.pop] (startScan start) (processStrongRoots c (startScan start)) ∧
      Quiet c start (processStrongRoots c (startScan start)) ∧
      ∀ i < c.rootCount, Settled c (processStrongRoots c (startScan start)).toHeap
        ((processStrongRoots c (startScan start)).words (.root i)) := by
  have held : ∀ s ∈ (range c.rootCount).map Slot.root, True →
      GoodSlot c Good (startScan start).toHeap s := by
    intro s among _
    obtain ⟨i, bound, rfl⟩ := mem_map.mp among
    exact good.roots i (mem_range.mp bound)
  obtain ⟨steps, quiet, settled⟩ := (scanSlot_scans setup none).fold setup
    ((range c.rootCount).map Slot.root) (.start_inv setup.formed) (quiet_start setup.formed)
    (by simp [Visible]) (by simp [IsSlot]) held
  exact ⟨steps, quiet, fun i bound => settled _ (by simpa using bound) trivial⟩

theorem genProcessStrongRoots_done (good : RootsGood c start Good) :
    Steps c start Good [.pop] (startScan start) (genProcessStrongRoots c (startScan start)) ∧
      Quiet c start (genProcessStrongRoots c (startScan start)) ∧
      RootsDone c start (genProcessStrongRoots c (startScan start)) := by
  have inv₀ : Inv c start Good (startScan start) := .start_inv setup.formed
  have edenBelowPerm : c.edenEnd c.id ≤ c.start .perm := le_trans setup.formed.edenBelow
    (le_trans setup.formed.oldAbove (le_trans setup.formed.topInside setup.formed.permAbove))
  have prepared : ∀ {σ}, Steps c start Good [.pop] (startScan start) σ →
      ∀ objects : List Nat, (∀ obj ∈ objects, obj ∈ rootObjects start) →
        ∀ obj ∈ objects, Prepared c start Good σ obj :=
    fun steps _ subset obj among =>
      (good.objects obj (subset obj among)).steps setup (by simp) inv₀ steps
  unfold genProcessStrongRoots
  dsimp only
  -- the roots
  obtain ⟨steps₁, quiet₁, settled⟩ := processStrongRoots_done setup good
  generalize processStrongRoots c (startScan start) = σ₁ at steps₁ quiet₁ settled ⊢
  have inv₁ := inv₀.steps setup steps₁
  obtain ⟨moved₁, valid₁⟩ := inv₁.valid
  rw [valid₁.perm]
  -- the permanent generation
  have ready₁ := prepared steps₁ start.perm (by simp +contextual [rootObjects])
  have perm := youngerRefsIterate_scanned setup edenBelowPerm start.perm inv₁ quiet₁ ready₁
  generalize youngerRefsIterate c .perm start.perm σ₁ = σ₂ at perm ⊢
  have steps₂ := steps₁.trans perm.steps
  have inv₂ := inv₀.steps setup steps₂
  obtain ⟨moved₂, valid₂⟩ := inv₂.valid
  rw [valid₂.gen0]
  -- the youngest generation
  have ready₂ := prepared steps₂ start.gen0 (by simp +contextual [rootObjects])
  have gen0 := oopIterateSpace_scanned setup .gen0 start.gen0 inv₂ perm.quiet ready₂
  generalize oopIterateSpace c .gen0 start.gen0 σ₂ = σ₃ at gen0 ⊢
  have steps₃ := steps₂.trans gen0.steps
  have inv₃ := inv₀.steps setup steps₃
  obtain ⟨moved₃, valid₃⟩ := inv₃.valid
  rw [otherEdenObjects_of_transNew valid₃.transNew]
  -- the other edens
  have ready₃ := prepared steps₃ (otherEdenObjects start) (by simp +contextual [rootObjects])
  have edens := oopIterateSpace_scanned setup .gen1 (otherEdenObjects start) inv₃ gen0.quiet
    ready₃
  generalize oopIterateSpace c .gen1 (otherEdenObjects start) σ₃ = σ₄ at edens ⊢
  have steps₄ := steps₃.trans edens.steps
  have inv₄ := inv₀.steps setup steps₄
  obtain ⟨moved₄, valid₄⟩ := inv₄.valid
  have saved : σ₄.savedMark = start.old.length := steps_savedMark (by simp) steps₄
  rw [valid₄.old, saved, take_left]
  -- Tenured, below the saved mark
  have old := youngerRefsIterate_scanned setup setup.formed.edenBelow start.old inv₄ edens.quiet
    (prepared steps₄ start.old (by simp +contextual [rootObjects]))
  have after₄ := old.steps
  have after₃ := edens.steps.trans after₄
  have after₂ := gen0.steps.trans after₃
  have after₁ := perm.steps.trans after₂
  refine ⟨.trans steps₄ old.steps, old.quiet,
    fun i bound => steps_settled setup inv₁ after₁ trivial (settled i bound), ?_⟩
  intro obj offset covered slot
  cases covered with
  | young among =>
    rcases mem_append.mp among with young | other
    · exact gen0.handled_later setup inv₂ ready₂ after₃ young slot trivial
    · exact edens.handled_later setup inv₃ ready₃ after₄ other slot trivial
  | perm among marked =>
    exact perm.handled_later setup inv₁ ready₁ after₂ among slot
      (onScannedCard_of_nonClean (steps_marks steps₁ _ _ marked))
  | old among marked =>
    exact old.handled obj among offset slot
      (onScannedCard_of_nonClean (steps_marks steps₄ _ _ marked))

/-! ### Followers -/

/-- The promoted objects below the saved mark have been scanned. -/
def Swept (c : Collector) (start : Heap) (σ : Scan) : Prop :=
  ∀ k obj, start.old.length ≤ k → k < σ.savedMark → σ.old[k]? = some obj → Done c σ obj

omit setup in
theorem copy_at (inv : Inv c start Good σ) {k : Nat} (above : start.old.length ≤ k)
    (at_k : σ.old[k]? = some obj) :
    ∃ source, Good source ∧ start.oldTop ≤ obj ∧ obj < σ.oldTop ∧
      σ.klass obj = start.klass source ∧ ∀ offset, Carries c start σ.toHeap
        (start.words (.field source offset)) (σ.words (.field obj offset)) := by
  obtain ⟨moved, valid⟩ := inv.valid
  rw [valid.old, getElem?_append_right above] at at_k
  obtain ⟨⟨source, copy⟩, pair, rfl⟩ := mem_map.mp (mem_of_getElem? at_k)
  obtain ⟨low, high⟩ := valid.fresh _ pair
  exact ⟨source, (valid.source _ pair).1, low, high, valid.copyKlass _ pair, valid.copyWords _ pair⟩

omit setup in
theorem visible_of_copy (formed : WellFormed c start) (low : start.oldTop ≤ obj)
    (high : obj < σ.oldTop) (offset : Nat) : Visible c start σ.toHeap (.field obj offset) := by
  refine ⟨.inl high, fun inside => ?_⟩
  have := formed.eden_lt_top inside
  omega

theorem ready_of_copy {covers : Slot → Prop} (inv : Inv c start Good σ) {k : Nat}
    (above : start.old.length ≤ k) (at_k : σ.old[k]? = some obj) :
    Ready c start Good covers σ obj := by
  obtain ⟨moved, valid⟩ := inv.valid
  obtain ⟨source, good, low, high, klass, carries⟩ := copy_at inv above at_k
  refine ready_of_goodSlots (visible_of_copy setup.formed low high) fun offset slot => ?_
  rw [klass] at slot
  exact goodSlot_of_carries setup.formed valid (carries offset) (setup.closed.slots source good offset slot)

omit setup in
theorem old_step (step : Step c start Good loops σ τ) : σ.old <+: τ.old := by
  cases step with
  | copy good white fits => exact prefix_append _ _
  | _ => exact prefix_refl _

omit setup in
theorem old_steps (steps : Steps c start Good loops σ τ) : σ.old <+: τ.old := by
  induction steps with
  | refl => exact prefix_refl _
  | tail _ step ih => exact ih.trans (old_step step)

theorem swept_steps (steady : .advance ∉ loops) (inv : Inv c start Good σ)
    (steps : Steps c start Good loops σ τ) (swept : Swept c start σ) : Swept c start τ := by
  intro k obj above below at_k
  rw [steps_savedMark steady steps] at below
  have bound : k < σ.old.length := lt_of_lt_of_le below inv.saved.2
  obtain ⟨more, grown⟩ := old_steps steps
  rw [← grown, getElem?_append_left bound] at at_k
  obtain ⟨source, -, low, high, -, -⟩ := copy_at inv above at_k
  exact steps_done setup inv steps (visible_of_copy setup.formed low high)
    (swept k obj above below at_k)

/-- The state between two phases of a collection. -/
structure Resting (c : Collector) (start : Heap) (Good : Nat → Prop) (σ : Scan) : Prop where
  inv : Inv c start Good σ
  quiet : Quiet c start σ
  swept : Swept c start σ

/-- One round of the followers closure: the object at the saved mark is scanned. -/
theorem followers_round (resting : Resting c start Good σ)
    (at_mark : σ.old[σ.savedMark]? = some obj)
    (round : τ = oopIterate c (scanSlot c (some .old)) { σ with savedMark := σ.savedMark + 1 } obj) :
    Steps c start Good [.pop, .advance] σ τ ∧ Resting c start Good τ ∧
      τ.savedMark = σ.savedMark + 1 := by
  have bound : σ.savedMark < σ.old.length := (List.getElem?_eq_some_iff.mp at_mark).1
  have step : Step c start Good [.pop, .advance] σ { σ with savedMark := σ.savedMark + 1 } :=
    .advance (by simp) bound
  have inv := resting.inv.step setup step
  have ready : Ready c start Good (fun _ => True) { σ with savedMark := σ.savedMark + 1 } obj :=
    ready_of_copy setup inv resting.inv.saved.1 at_mark
  obtain ⟨steps, quiet, handled⟩ := (scanSlot_scans setup (some .old)).oopIterate setup ready inv
    ⟨resting.quiet.stack, resting.quiet.covered⟩
  rw [← round] at steps quiet handled
  have saved : τ.savedMark = σ.savedMark + 1 := steps_savedMark (by simp) steps
  refine ⟨.head step (steps_more (by simp) steps),
    ⟨inv.steps setup steps, quiet, fun k other from_start below at_k => ?_⟩, saved⟩
  have before : k < σ.old.length := by omega
  obtain ⟨more, grown⟩ := old_steps steps
  rw [← grown, getElem?_append_left before] at at_k
  obtain ⟨source, -, low, high, -, -⟩ := copy_at inv from_start at_k
  by_cases last : k = σ.savedMark
  · subst last
    obtain rfl : obj = other := some.inj (at_mark.symm.trans at_k)
    intro offset slot
    rw [steps_klass setup inv steps ready.visible] at slot
    exact handled offset slot trivial
  · exact steps_done setup inv steps (visible_of_copy setup.formed low high)
      (resting.swept k other from_start (by omega) at_k)

theorem oopSinceSaveMarksIterate_ends {fuel : Nat} (resting : Resting c start Good σ)
    (enough : start.old.length + (start.edenObjects c.id).length < fuel + σ.savedMark) :
    ∃ τ, oopSinceSaveMarksIterate c fuel σ = some τ ∧
      Steps c start Good [.pop, .advance] σ τ ∧ Resting c start Good τ ∧
      τ.savedMark = τ.old.length := by
  have saved := resting.inv.saved
  induction fuel generalizing σ with
  | zero =>
    have room := resting.inv.room
    omega
  | succ fuel ih =>
    rw [oopSinceSaveMarksIterate]
    split
    · rename_i outside
      have high := getElem?_eq_none_iff.mp outside
      exact ⟨σ, rfl, .refl, resting, by omega⟩
    · rename_i obj at_mark
      obtain ⟨first, rest, advanced⟩ := followers_round setup resting at_mark rfl
      obtain ⟨τ, ends, later, result⟩ := ih rest (by omega) rest.inv.saved
      exact ⟨τ, ends, .trans first later, result⟩

theorem evacuateFollowers_ends (resting : Resting c start Good σ) :
    ∃ τ, evacuateFollowers c σ = some τ ∧ Steps c start Good [.pop, .advance] σ τ ∧
      Resting c start Good τ ∧ τ.savedMark = τ.old.length := by
  obtain ⟨moved, valid⟩ := resting.inv.valid
  have saved := resting.inv.saved
  have objects : σ.edenObjects c.id = start.edenObjects c.id := by
    rw [Heap.edenObjects, valid.transNew, Heap.edenObjects]
  have enough : start.old.length + (start.edenObjects c.id).length <
      EdenScan.fuel c σ + σ.savedMark := by
    rw [EdenScan.fuel, objects]
    omega
  obtain ⟨τ, ends, steps, rest, caught⟩ := oopSinceSaveMarksIterate_ends setup resting enough
  refine ⟨τ, ?_, steps, rest, caught⟩
  rw [evacuateFollowers, ends, bind_some, if_pos rest.quiet.stack]

end ScanPhases
