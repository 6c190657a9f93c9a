import Mathlib.Data.List.Perm.Subperm
import TransGC.ScavengeClosures

/-!
# The scan of the roots and of what was copied

After `gen_process_strong_roots` no slot it looks at points to an object that is still to be
copied. The followers closure then scans the copies in to-space and in Tenured until neither has
grown; it ends because no more objects can be copied than eden and from-space hold.
-/
namespace ScavengePhases
open EdenTable MarkWord ObjectHeap YoungScavenge ScavengeSteps ScavengeInvariant ScavengeOperations
  ScavengeClosures Function List

variable {c : Scavenger} {start young : YoungHeap} {touch : Slot → Prop} {loops : List LoopStep}
  {σ τ : Scan} {a obj k offset : Nat} {d : Destination} {s : Slot} {moved : List Move}
  {objects : List Nat} {covers : Nat → Slot → Prop}

/-! ### Lists of objects -/

structure Prepared (c : Scavenger) (start : YoungHeap) (σ : Scan) (obj : Nat) : Prop where
  ready : Ready c start (fun _ => True) σ obj
  klass : σ.klass obj = start.klass obj
  old : ¬ c.inGen0 obj = true

section

variable (formed : Startable c start)
include formed

theorem Prepared.steps (inv : Inv c start σ) (steps : Steps c start touch loops σ τ)
    (untouched : ∀ offset, ¬ touch (.field obj offset)) (prepared : Prepared c start σ obj) :
    Prepared c start τ obj where
  ready := steps_ready formed inv steps untouched prepared.ready
  klass := (steps_klass formed inv steps (prepared.ready.visible 0)).trans prepared.klass
  old := prepared.old

def OfObjects (objects : List Nat) (s : Slot) : Prop := ∃ obj ∈ objects, OfObject obj s

structure Scanned (c : Scavenger) (start : YoungHeap) (covers : Nat → Slot → Prop)
    (objects : List Nat) (σ τ : Scan) : Prop where
  steps : Steps c start (OfObjects objects) [] σ τ
  handled : ∀ obj ∈ objects, ∀ offset ∈ (start.klass obj).slots, covers obj (.field obj offset) →
    Handled start τ (.field obj offset)

theorem fold_scanned {f : Scan → Nat → Scan} (objects : List Nat) (distinct : objects.Nodup)
    (operations : ∀ σ obj, Operations c σ (f σ obj))
    (each : ∀ {σ obj}, Inv c start σ → Prepared c start σ obj →
      (f σ obj).promotionFailed = false → Scanned c start covers [obj] σ (f σ obj))
    (inv : Inv c start σ) (prepared : ∀ obj ∈ objects, Prepared c start σ obj)
    (success : (objects.foldl f σ).promotionFailed = false) :
    Scanned c start covers objects σ (objects.foldl f σ) := by
  induction objects generalizing σ with
  | nil => exact ⟨.refl, fun _ among => by cases among⟩
  | cons obj objects ih =>
    obtain ⟨missing, distinct⟩ := nodup_cons.mp distinct
    have own := prepared obj mem_cons_self
    have first := each inv own
      (succeeded_before (foldl_operations operations objects (f σ obj)) success)
    have after := inv_steps formed inv first.steps
    have rest := ih distinct after
      (fun other among => by
        apply (prepared other (mem_cons_of_mem obj among)).steps formed inv first.steps
        rintro offset ⟨same, listed, offset', equal⟩
        obtain rfl := mem_singleton.mp listed
        obtain rfl := (Slot.field.inj equal).1
        exact missing among)
      success
    refine ⟨.trans (steps_more ?_ (nil_subset _) first.steps)
      (steps_more ?_ (nil_subset _) rest.steps), fun other among offset slot covered => ?_⟩
    · rintro s ⟨other, listed, ofObject⟩
      obtain rfl := mem_singleton.mp listed
      exact ⟨other, mem_cons_self, ofObject⟩
    · rintro s ⟨other, listed, ofObject⟩
      exact ⟨other, mem_cons_of_mem obj listed, ofObject⟩
    · rcases mem_cons.mp among with rfl | later
      · refine steps_handled formed after rest.steps
          (steps_visible first.steps (own.ready.visible offset)) ?_
          (first.handled other mem_cons_self offset slot covered)
        rintro ⟨same, listed, offset', equal⟩
        obtain rfl := (Slot.field.inj equal).1
        exact missing listed
      · exact rest.handled other later offset slot covered

theorem scanned_of_scans {doOop : Scan → Slot → Scan} (scans : Scans c start (covers obj) doOop)
    (inv : Inv c start σ) (prepared : Prepared c start σ obj)
    (success : (oopIterate c doOop σ obj).promotionFailed = false) :
    Scanned c start covers [obj] σ (oopIterate c doOop σ obj) := by
  obtain ⟨steps, handled, -⟩ := scans.oopIterate formed
    ⟨prepared.ready.visible,
      fun offset slot _ => prepared.ready.unscanned offset slot trivial,
      prepared.ready.distinct⟩ (fun inside => absurd inside prepared.old) inv success
  refine ⟨steps_more ?_ (nil_subset _) steps, fun other among offset slot covered => ?_⟩
  · exact fun s ofObject => ⟨obj, mem_singleton_self _, ofObject⟩
  · obtain rfl := mem_singleton.mp among
    rw [← prepared.klass] at slot
    exact handled offset slot covered

theorem oopIterateSpace_scanned (region : Region) (objects : List Nat) (distinct : objects.Nodup)
    (inv : Inv c start σ) (prepared : ∀ obj ∈ objects, Prepared c start σ obj)
    (success : (oopIterateSpace c region objects σ).promotionFailed = false) :
    Scanned c start (fun _ _ => True) objects σ (oopIterateSpace c region objects σ) :=
  fold_scanned formed objects distinct
    (fun υ obj => oopIterate_operations (fun ω s => scanSlot_operations (some region) ω s) υ obj)
    (fun inv prepared success =>
      scanned_of_scans formed (scanSlot_scans formed (some region)) inv prepared success)
    inv prepared success

/-- The slots of an object that lie on the scanned cards. -/
def OnCards (cards : Nat → Card) (isArray : Bool) : Slot → Prop
  | .field obj offset => onScannedCard cards isArray obj offset = true
  | _ => False

theorem filtered_scans {region : Region} (above : c.start .gen1 ≤ c.start region)
    (cards : Nat → Card) (isArray : Bool) :
    Scans c start (OnCards cards isArray) (filtered c region cards isArray) where
  operations σ s := filtered_operations region cards isArray σ s
  steps {σ s} inv visible slot unscanned success := by
    cases s with
    | field obj offset =>
      unfold filtered at success ⊢
      dsimp only at success ⊢
      split
      · rename_i looked
        rw [if_pos looked] at success
        exact (scanSlot_scans formed (some region)).steps inv visible slot
          (fun _ => unscanned (Bool.and_eq_true_iff.mp looked).1) success
      · exact .refl
    | _ => exact .refl
  settles {σ s} inv visible slot covered unscanned success := by
    cases s with
    | field obj offset =>
      have onCard : onScannedCard cards isArray obj offset = true := covered
      unfold filtered at success ⊢
      dsimp only at success ⊢
      split
      · rename_i looked
        rw [if_pos looked] at success
        exact (scanSlot_scans formed (some region)).settles inv visible slot trivial unscanned
          success
      · rename_i skipped
        intro among
        have young := inGen0_iff.mp (formed.sources _ among).1
        refine skipped (Bool.and_eq_true_iff.mpr ⟨onCard, decide_eq_true ?_⟩)
        omega
    | _ => cases covered
  lists {σ s} inv visible slot unscanned success := by
    cases s with
    | field obj offset =>
      unfold filtered at success ⊢
      dsimp only at success ⊢
      split
      · rename_i looked
        rw [if_pos looked] at success
        exact (scanSlot_scans formed (some region)).lists inv visible slot
          (fun _ => unscanned (Bool.and_eq_true_iff.mp looked).1) success
      · rfl
    | _ => rfl

theorem youngerRefsIterate_scanned {region : Region} (above : c.start .gen1 ≤ c.start region)
    (objects : List Nat) (distinct : objects.Nodup) (inv : Inv c start σ)
    (prepared : ∀ obj ∈ objects, Prepared c start σ obj)
    (success : (youngerRefsIterate c region objects σ).promotionFailed = false) :
    Scanned c start (fun obj => OnCards (σ.cards region) (start.klass obj).isArray) objects σ
      (youngerRefsIterate c region objects σ) := by
  refine fold_scanned formed objects distinct
    (fun υ obj => oopIterate_operations (fun ω s => filtered_operations region _ _ ω s) υ obj)
    (fun inv prepared success => ?_) inv prepared success
  rw [prepared.klass] at success ⊢
  exact scanned_of_scans formed (filtered_scans formed above _ _) inv prepared success

/-! ### Strong roots -/

omit formed in
theorem allObjects_of_outside (outer : obj ∈ outside start) :
    obj ∈ ScanSteps.allObjects start.heap := by
  simp only [outside, mem_append] at outer
  simp only [ScanSteps.allObjects, mem_append]
  rcases outer with (eden | tenured) | permanent
  · exact .inl (.inl (.inr eden))
  · exact .inl (.inr tenured)
  · exact .inr permanent

omit formed in
theorem visible_of_outside (outer : obj ∈ outside start) (offset : Nat) :
    Visible (startScan start) (.field obj offset) := by
  simp only [outside, mem_append] at outer
  rcases outer with (eden | tenured) | permanent
  · exact .inl eden
  · refine .inr (.inr ⟨.tenured, ?_⟩)
    change obj ∈ (start.room .tenured).objects.take (start.room .tenured).objects.length
    rwa [take_length]
  · exact .inr (.inl permanent)

theorem prepared_of_outside (outer : obj ∈ outside start) :
    Prepared c start (startScan start) obj where
  ready :=
    { visible := visible_of_outside outer
      unscanned := fun _ slot _ =>
        formed.pointers _ (.field (allObjects_of_outside outer) slot)
      distinct := formed.oopMaps obj (allObjects_of_outside outer) }
  klass := rfl
  old := formed.outside_not_inGen0 outer

theorem settled_of_outside (inv : Inv c start σ) (outer : obj ∈ outside start)
    (handled : Handled start σ (.field obj offset)) :
    σ.words (.field obj offset) ∉ start.sources := by
  rcases handled with settled | ⟨kind, r, same, among⟩
  · exact settled
  · obtain ⟨moved, valid⟩ := inv.valid
    obtain rfl := (Slot.field.inj same).1
    have survivor := mem_of_mem_take (inv.lists kind obj among).survivor
    exact absurd (valid.objects_inRoom formed.toWellFormed survivor).1
      (formed.outside_not_toSpace outer)

/-- No weak handle. -/
def Strong (s : Slot) : Prop := ∀ i, s ≠ .weakRoot i

omit formed in
theorem strong_of_ofObjects (ofObjects : OfObjects objects s) : Strong s := by
  obtain ⟨obj, -, offset, rfl⟩ := ofObjects
  exact fun _ => nofun

structure RootsDone (c : Scavenger) (start : YoungHeap) (σ : Scan) : Prop where
  roots : ∀ i < c.rootCount, σ.words (.root i) ∉ start.sources
  edens : ∀ obj ∈ start.edenObjects, ∀ offset ∈ (start.klass obj).slots,
    σ.words (.field obj offset) ∉ start.sources
  cards : ∀ region objects,
    (region, objects) ∈ [(Region.old, (start.room .tenured).objects), (Region.perm, start.perm)] →
      ∀ obj ∈ objects, ∀ offset ∈ (start.klass obj).slots,
        start.cards region (cardFor (obj + offset)) ≠ .clean →
          σ.words (.field obj offset) ∉ start.sources

theorem processStrongRoots_done
    (success : (processStrongRoots c (startScan start)).promotionFailed = false) :
    Steps c start (∃ i, · = .root i) [] (startScan start) (processStrongRoots c (startScan start)) ∧
      ∀ i < c.rootCount, (processStrongRoots c (startScan start)).words (.root i) ∉ start.sources := by
  obtain ⟨steps, settled, -⟩ := (scanSlot_scans formed none).fold formed
    ((range c.rootCount).map Slot.root)
    (nodup_range.map fun _ _ same => Slot.root.inj same) (startScan_inv formed)
    (by
      intro s among
      obtain ⟨i, -, rfl⟩ := mem_map.mp among
      trivial)
    (by
      intro s among
      obtain ⟨i, -, rfl⟩ := mem_map.mp among
      trivial)
    (by
      intro s among _
      obtain ⟨i, bound, rfl⟩ := mem_map.mp among
      exact formed.pointers _ (.root (mem_range.mp bound)))
    success
  refine ⟨steps_more ?_ (nil_subset _) steps, fun i bound => ?_⟩
  · intro s among
    obtain ⟨i, -, rfl⟩ := mem_map.mp among
    exact ⟨i, rfl⟩
  · exact settled _ (mem_map_of_mem (mem_range.mpr bound)) trivial

theorem disjoint_outside :
    List.Disjoint start.edenObjects (start.room .tenured).objects ∧
      List.Disjoint start.edenObjects start.perm ∧
      List.Disjoint (start.room .tenured).objects start.perm := by
  have distinct := formed.distinct
  have both := disjoint_of_nodup_append distinct
  have young := disjoint_of_nodup_append (Nodup.of_append_left distinct)
  exact ⟨young, (disjoint_append_left.mp both).1, (disjoint_append_left.mp both).2⟩

omit formed in
theorem not_ofObjects (missing : obj ∉ objects) : ¬ OfObjects objects (.field obj offset) := by
  rintro ⟨other, listed, offset', equal⟩
  obtain rfl := (Slot.field.inj equal).1
  exact missing listed

/-- What was handled by the scan of objects that stay is settled for good. -/
theorem Scanned.settled {υ : Scan} (scanned : Scanned c start covers objects σ τ)
    (inv : Inv c start σ) (prepared : ∀ obj ∈ objects, Prepared c start σ obj)
    (outer : ∀ obj ∈ objects, obj ∈ outside start) (later : Steps c start touch loops τ υ)
    (among : obj ∈ objects) (slot : offset ∈ (start.klass obj).slots)
    (covered : covers obj (.field obj offset)) : υ.words (.field obj offset) ∉ start.sources := by
  have after := inv_steps formed inv scanned.steps
  have settled := settled_of_outside formed after (outer obj among)
    (scanned.handled obj among offset slot covered)
  have visible := steps_visible scanned.steps ((prepared obj among).ready.visible offset)
  exact steps_not_source formed after later visible settled

theorem genProcessStrongRoots_done
    (success : (genProcessStrongRoots c (startScan start)).promotionFailed = false) :
    Steps c start Strong [] (startScan start) (genProcessStrongRoots c (startScan start)) ∧
      RootsDone c start (genProcessStrongRoots c (startScan start)) := by
  have gen1 := formed.gen1Below
  have old := formed.oldAbove
  have limit := (formed.topInside .tenured).2
  have above := formed.permAbove
  obtain ⟨edenTenured, edenPerm, tenuredPerm⟩ := disjoint_outside formed
  have distinct := formed.distinct
  have distinctPerm := Nodup.of_append_right distinct
  have distinctEden := Nodup.of_append_left (Nodup.of_append_left distinct)
  have distinctTenured := Nodup.of_append_right (Nodup.of_append_left distinct)
  have outerPerm : ∀ obj ∈ start.perm, obj ∈ outside start := by simp +contextual [outside]
  have outerEden : ∀ obj ∈ start.edenObjects, obj ∈ outside start := by simp +contextual [outside]
  have outerTenured : ∀ obj ∈ (start.room .tenured).objects, obj ∈ outside start := by
    simp +contextual [outside]
  have inv₀ := startScan_inv formed
  unfold genProcessStrongRoots at success ⊢
  dsimp only at success ⊢
  -- the roots outside the heap
  obtain ⟨first, roots⟩ := processStrongRoots_done formed
    (succeeded_before (youngerRefsIterate_operations _ _ _)
      (succeeded_before (oopIterateSpace_operations _ _ _)
        (succeeded_before (youngerRefsIterate_operations _ _ _) success)))
  have cards₁ := marks_of_operations (processStrongRoots_operations (c := c) (startScan start))
  generalize processStrongRoots c (startScan start) = σ₁ at success first roots cards₁ ⊢
  have inv₁ := inv_steps formed inv₀ first
  obtain ⟨moved₁, valid₁⟩ := inv₁.valid
  rw [valid₁.perm] at success ⊢
  have prepared₁ : ∀ obj ∈ outside start, Prepared c start σ₁ obj := by
    intro obj outer
    apply (prepared_of_outside formed outer).steps formed inv₀ first
    rintro offset ⟨i, same⟩
    cases same
  -- the permanent generation
  have perm := youngerRefsIterate_scanned formed (by omega) start.perm distinctPerm inv₁
    (fun obj among => prepared₁ obj (outerPerm obj among))
    (succeeded_before (oopIterateSpace_operations _ _ _)
      (succeeded_before (youngerRefsIterate_operations _ _ _) success))
  have cards₂ := marks_of_operations (youngerRefsIterate_operations (c := c) .perm start.perm σ₁)
  generalize youngerRefsIterate c .perm start.perm σ₁ = σ₂ at success perm cards₂ ⊢
  have inv₂ := inv_steps formed inv₁ perm.steps
  obtain ⟨moved₂, valid₂⟩ := inv₂.valid
  rw [valid₂.edenObjects] at success ⊢
  have prepared₂ : ∀ obj ∈ outside start, obj ∉ start.perm → Prepared c start σ₂ obj := by
    intro obj outer missing
    exact (prepared₁ obj outer).steps formed inv₁ perm.steps fun _ => not_ofObjects missing
  have preparedEden : ∀ obj ∈ start.edenObjects, Prepared c start σ₂ obj :=
    fun obj among => prepared₂ obj (outerEden obj among) (edenPerm among)
  -- the edens
  have edens := oopIterateSpace_scanned formed .gen1 start.edenObjects distinctEden inv₂
    preparedEden (succeeded_before (youngerRefsIterate_operations _ _ _) success)
  have cards₃ :=
    marks_of_operations (oopIterateSpace_operations (c := c) .gen1 start.edenObjects σ₂)
  generalize oopIterateSpace c .gen1 start.edenObjects σ₂ = σ₃ at success edens cards₃ ⊢
  have inv₃ := inv_steps formed inv₂ edens.steps
  obtain ⟨moved₃, valid₃⟩ := inv₃.valid
  have mark : σ₃.savedMark .tenured = (start.room .tenured).objects.length := by
    rw [steps_savedMark (by simp) edens.steps, steps_savedMark (by simp) perm.steps,
      steps_savedMark (by simp) first]
    rfl
  have tenured : (σ₃.room .tenured).objects.take (σ₃.savedMark .tenured) =
      (start.room .tenured).objects := by
    rw [valid₃.objects, mark, take_left]
  rw [tenured] at success ⊢
  have preparedTenured : ∀ obj ∈ (start.room .tenured).objects, Prepared c start σ₃ obj := by
    intro obj among
    apply (prepared₂ obj (outerTenured obj among) (tenuredPerm among)).steps formed inv₂ edens.steps
    exact fun _ => not_ofObjects fun eden => edenTenured eden among
  -- Tenured
  have old := youngerRefsIterate_scanned formed gen1 (start.room .tenured).objects
    distinctTenured inv₃ preparedTenured success
  generalize youngerRefsIterate c .old (start.room .tenured).objects σ₃ = σ₄ at old ⊢
  have wide : ∀ {objects : List Nat} {υ ω : Scan}, Steps c start (OfObjects objects) [] υ ω →
      Steps c start Strong [] υ ω :=
    fun steps => steps_more (fun _ => strong_of_ofObjects) (nil_subset _) steps
  have from₂ := (wide edens.steps).trans (wide old.steps)
  have from₁ := (wide perm.steps).trans from₂
  have from₀ : Steps c start Strong [] (startScan start) σ₁ := by
    refine steps_more ?_ (nil_subset _) first
    rintro s ⟨i, rfl⟩ k same
    cases same
  refine ⟨.trans from₀ from₁, ?_, ?_, ?_⟩
  · intro i bound
    exact steps_not_source (s := .root i) formed inv₁ from₁ trivial (roots i bound)
  · intro obj among offset slot
    exact edens.settled formed inv₂ preparedEden outerEden old.steps among slot trivial
  · intro region objects listed obj among offset slot marked
    simp only [mem_cons, not_mem_nil, or_false, Prod.mk.injEq] at listed
    rcases listed with ⟨rfl, rfl⟩ | ⟨rfl, rfl⟩
    · have last : Steps c start (fun _ => True) [] σ₄ σ₄ := .refl
      apply old.settled formed inv₃ preparedTenured outerTenured last among slot
      exact onScannedCard_of_nonClean (cards₃ _ _ (cards₂ _ _ (cards₁ _ _ marked)))
    · apply perm.settled formed inv₁ (fun obj among => prepared₁ obj (outerPerm obj among))
        outerPerm from₂ among slot
      exact onScannedCard_of_nonClean (cards₁ _ _ marked)

end

/-! ### Followers -/

/-- Copies below the saved marks have been scanned. -/
def Swept (start : YoungHeap) (σ : Scan) : Prop :=
  ∀ d k obj, (start.room d).objects.length ≤ k → k < σ.savedMark d →
    (σ.room d).objects[k]? = some obj →
      ∀ offset ∈ (σ.klass obj).slots, Handled start σ (.field obj offset)

/-- What holds between two parts of the collection. -/
structure Resting (c : Scavenger) (start : YoungHeap) (σ : Scan) : Prop where
  inv : Inv c start σ
  swept : Swept start σ
  stack : σ.failureStack = []
  running : σ.aborted = false

/-- How many objects of the two spaces lie below the saved marks. -/
def scannedCount (σ : Scan) : Nat := σ.savedMark .toSpace + σ.savedMark .tenured

theorem steps_control (steps : Steps c start touch loops σ τ) :
    τ.failureStack = σ.failureStack ∧ τ.aborted = σ.aborted := by
  induction steps with
  | refl => exact ⟨rfl, rfl⟩
  | tail _ step ih =>
    obtain ⟨stack, aborted⟩ := ih
    cases step with
    | @copy d a among white room => cases d <;> exact ⟨stack, aborted⟩
    | _ => exact ⟨stack, aborted⟩

theorem moved_length_le (valid : Valid c start young moved) :
    moved.length ≤ start.sources.length := by
  have distinct : (moved.map Move.source).Nodup := valid.origins_nodup
  have inside : moved.map Move.source ⊆ start.sources := by
    intro a among
    obtain ⟨m, listed, rfl⟩ := mem_map.mp among
    exact (valid.source m listed).1
  simpa using (distinct.subperm inside).length_le

theorem objects_length_le (valid : Valid c start young moved) (d : Destination) :
    (young.room d).objects.length ≤ (start.room d).objects.length + start.sources.length := by
  have bound := moved_length_le valid
  have part := length_filter_le (fun m => decide (m.dest = d)) moved
  rw [valid.objects d, length_append, length_map]
  omega

theorem objects_total_le (valid : Valid c start young moved) :
    (young.room .toSpace).objects.length + (young.room .tenured).objects.length ≤
      (start.room .toSpace).objects.length + (start.room .tenured).objects.length +
        start.sources.length := by
  have split : ∀ l : List Move, (l.filter fun m => m.dest = .toSpace).length +
      (l.filter fun m => m.dest = .tenured).length = l.length := by
    intro l
    induction l with
    | nil => rfl
    | cons m l ih =>
      obtain ⟨source, dest, target⟩ := m
      cases dest with
      | toSpace =>
        simp
        omega
      | tenured =>
        simp
        omega
  have bound := moved_length_le valid
  have parts := split moved
  rw [valid.objects, valid.objects, length_append, length_append, length_map, length_map]
  omega

theorem copy_of_index (valid : Valid c start young moved)
    (above : (start.room d).objects.length ≤ k) (found : (young.room d).objects[k]? = some obj) :
    ∃ m ∈ moved, m.target = obj := by
  rw [valid.objects d, getElem?_append_right above] at found
  obtain ⟨m, filtered, same⟩ := mem_map.mp (mem_of_getElem? found)
  exact ⟨m, (mem_filter.mp filtered).1, same⟩

theorem mem_take_of_getElem? {l : List Nat} {n : Nat} (found : l[k]? = some obj) (below : k < n) :
    obj ∈ l.take n := by
  apply mem_of_getElem? (i := k)
  rw [getElem?_take_of_lt below, found]

theorem objects_before (steps : Steps c start touch loops σ τ)
    (inside : k < (σ.room d).objects.length) (found : (τ.room d).objects[k]? = some obj) :
    (σ.room d).objects[k]? = some obj := by
  obtain ⟨rest, same⟩ := steps_objects_grow steps d
  rw [← same, getElem?_append_left inside] at found
  exact found

theorem scan_next (formed : Startable c start) (resting : Resting c start σ)
    (found : (σ.room d).objects[σ.savedMark d]? = some obj)
    (success : (oopIterate c (scanSlot c (some d.region)) (σ.advance d) obj).promotionFailed =
      false) :
    Steps c start (¬ Visible σ ·) [.advance] σ
        (oopIterate c (scanSlot c (some d.region)) (σ.advance d) obj) ∧
      Resting c start (oopIterate c (scanSlot c (some d.region)) (σ.advance d) obj) ∧
      (∀ kind, Fresh c start σ kind →
        Fresh c start (oopIterate c (scanSlot c (some d.region)) (σ.advance d) obj) kind) ∧
      (oopIterate c (scanSlot c (some d.region)) (σ.advance d) obj).savedMark =
        (σ.advance d).savedMark := by
  obtain ⟨moved, valid⟩ := resting.inv.valid
  have bound := (List.getElem?_eq_some_iff.mp found).1
  have first : Step c start (¬ Visible σ ·) [.advance] σ (σ.advance d) := .advance (by simp) bound
  have inv := inv_step formed resting.inv first
  have next : (σ.advance d).savedMark d = σ.savedMark d + 1 := update_self ..
  have visible : ∀ offset, Visible (σ.advance d) (.field obj offset) := by
    intro offset
    refine .inr (.inr ⟨d, mem_take_of_getElem? found ?_⟩)
    rw [next]
    exact Nat.lt_succ_self _
  have waits : obj ∈ (σ.room d).objects.drop (σ.savedMark d) := by
    apply mem_of_getElem? (i := 0)
    rw [getElem?_drop, Nat.add_zero, found]
  have distinct : (σ.klass obj).slots.Nodup := by
    obtain ⟨m, listed, rfl⟩ := copy_of_index valid (resting.inv.saved d).1 found
    rw [valid.copyKlass m listed]
    exact formed.oopMaps _ (allObjects_of_source (valid.source m listed).1)
  obtain ⟨second, handled, lists⟩ := (scanSlot_scans formed (some d.region)).oopIterate formed
    ⟨visible, fun offset slot _ => resting.inv.waiting d obj waits offset slot, distinct⟩
    (fun _ => trivial) inv success
  generalize oopIterate c (scanSlot c (some d.region)) (σ.advance d) obj = τ at second handled lists ⊢
  have marks := steps_savedMark (by simp) second
  have hidden : ∀ s, OfObject obj s → ¬ Visible σ s := by
    rintro s ⟨offset, rfl⟩
    exact not_visible_of_waiting formed valid waits
  have all : Steps c start (¬ Visible σ ·) [.advance] σ τ := .head first
    (steps_more hidden (nil_subset _) second)
  refine ⟨all, ⟨inv_steps formed inv second, ?_, ?_, ?_⟩, fun kind fresh r among => ?_, marks⟩
  · intro e k other above below there offset slot
    rw [marks] at below
    have before := objects_before all (lt_of_lt_of_le below (inv.saved e).2) there
    have seen : Visible (σ.advance d) (.field other offset) :=
      .inr (.inr ⟨e, mem_take_of_getElem? before below⟩)
    rw [steps_klass formed inv second seen] at slot
    by_cases same : other = obj
    · subst same
      exact handled offset slot trivial
    · have earlier : k < σ.savedMark e := by
        by_cases here : e = d
        · subst here
          have different : k ≠ σ.savedMark e := by
            rintro rfl
            rw [found] at before
            exact same (Option.some.inj before).symm
          omega
        · have kept : (σ.advance d).savedMark e = σ.savedMark e := update_of_ne here ..
          rwa [kept] at below
      refine steps_handled formed inv second seen ?_
        (resting.swept e k other above earlier before offset slot)
      rintro ⟨offset', equal⟩
      exact same (Slot.field.inj equal).1
  · exact (steps_control all).1.trans resting.stack
  · exact (steps_control all).2.trans resting.running
  · rcases lists kind r among with earlier | ⟨rfl, unscanned⟩
    · have seen : Visible σ (.field r referentOffset) :=
        visible_of_listed (resting.inv.lists kind r earlier)
      exact steps_unscanned formed resting.inv all seen (not_not_intro seen) (fresh r earlier)
    · exact unscanned

/-- What a loop over the copies leaves behind: nothing happened, or more objects are scanned. -/
structure Advanced (c : Scavenger) (start : YoungHeap) (σ τ : Scan) : Prop where
  steps : Steps c start (¬ Visible σ ·) [.advance] σ τ
  resting : Resting c start τ
  fresh : ∀ kind, Fresh c start σ kind → Fresh c start τ kind
  progress : τ = σ ∨ scannedCount σ < scannedCount τ

theorem Advanced.trans {υ : Scan} (first : Advanced c start σ τ) (second : Advanced c start τ υ) :
    Advanced c start σ υ where
  steps := by
    refine .trans first.steps (steps_more ?_ (List.Subset.refl _) second.steps)
    exact fun s hidden visible => hidden (steps_visible first.steps visible)
  resting := second.resting
  fresh := fun kind start => second.fresh kind (first.fresh kind start)
  progress := by
    rcases first.progress with rfl | less
    · exact second.progress
    · right
      rcases second.progress with rfl | more
      · exact less
      · exact lt_trans less more

theorem advance_count (σ : Scan) (d : Destination) :
    scannedCount (σ.advance d) = scannedCount σ + 1 := by
  cases d with
  | toSpace =>
    simp only [scannedCount, Scan.advance, update_self,
      update_of_ne (show Destination.tenured ≠ .toSpace by decide)]
    omega
  | tenured =>
    simp only [scannedCount, Scan.advance, update_self,
      update_of_ne (show Destination.toSpace ≠ .tenured by decide)]
    omega

theorem rounds_eq (inv : Inv c start σ) : rounds σ = start.sources.length + 1 := by
  obtain ⟨moved, valid⟩ := inv.valid
  rw [rounds, valid.sources]

/-- The saved marks are at the tops. -/
def CaughtUp (σ : Scan) : Prop := ∀ d, σ.savedMark d = (σ.room d).objects.length

theorem caughtUp_of_noAllocs (quiet : noAllocsSinceSaveMarks σ = true) : CaughtUp σ := by
  simp only [noAllocsSinceSaveMarks, Bool.and_eq_true, beq_iff_eq] at quiet
  intro d
  cases d with
  | toSpace => exact quiet.1
  | tenured => exact quiet.2

variable (formed : Startable c start) (resting : Resting c start σ)
include formed resting

theorem sinceSaveMarks_done (d : Destination) (fuel : Nat)
    (enough : (start.room d).objects.length + start.sources.length < σ.savedMark d + fuel)
    (success : (sinceSaveMarks c d fuel σ).promotionFailed = false) :
    Advanced c start σ (sinceSaveMarks c d fuel σ) ∧
      (sinceSaveMarks c d fuel σ).savedMark d =
        ((sinceSaveMarks c d fuel σ).room d).objects.length := by
  induction fuel generalizing σ with
  | zero =>
    obtain ⟨moved, valid⟩ := resting.inv.valid
    have saved := (resting.inv.saved d).2
    have bound := objects_length_le valid d
    omega
  | succ fuel ih =>
    rw [sinceSaveMarks] at success ⊢
    split
    · rename_i none
      refine ⟨⟨.refl, resting, fun _ fresh => fresh, .inl rfl⟩, ?_⟩
      exact le_antisymm (resting.inv.saved d).2 (List.getElem?_eq_none_iff.mp none)
    · rename_i obj found
      simp only [found] at success
      obtain ⟨steps, after, fresh, marks⟩ := scan_next formed resting found
        (succeeded_before (sinceSaveMarks_operations d fuel _) success)
      have count : scannedCount (oopIterate c (scanSlot c (some d.region)) (σ.advance d) obj) =
          scannedCount σ + 1 := by
        rw [scannedCount, marks]
        exact advance_count σ d
      have next : (oopIterate c (scanSlot c (some d.region)) (σ.advance d) obj).savedMark d =
          σ.savedMark d + 1 := by
        rw [marks]
        exact update_self ..
      have once : Advanced c start σ
          (oopIterate c (scanSlot c (some d.region)) (σ.advance d) obj) :=
        ⟨steps, after, fresh, .inr (by omega)⟩
      obtain ⟨rest, caughtUp⟩ := ih after (by omega) success
      exact ⟨once.trans rest, caughtUp⟩

theorem oopSinceSaveMarksIterate_done
    (success : (oopSinceSaveMarksIterate c σ).promotionFailed = false) :
    Advanced c start σ (oopSinceSaveMarksIterate c σ) ∧
      (noAllocsSinceSaveMarks (oopSinceSaveMarksIterate c σ) = true ∨
        scannedCount σ < scannedCount (oopSinceSaveMarksIterate c σ)) := by
  unfold oopSinceSaveMarksIterate at success ⊢
  have low := fun (υ : Scan) (inv : Inv c start υ) (d : Destination) => (inv.saved d).1
  obtain ⟨first, survivors⟩ := sinceSaveMarks_done formed resting .toSpace (rounds σ)
    (by
      have := low σ resting.inv .toSpace
      rw [rounds_eq resting.inv]
      omega)
    (succeeded_before (sinceSaveMarks_operations _ _ _) success)
  generalize sinceSaveMarks c .toSpace (rounds σ) σ = σ₁ at success first survivors ⊢
  obtain ⟨second, promoted⟩ := sinceSaveMarks_done formed first.resting .tenured (rounds σ₁)
    (by
      have := low σ₁ first.resting.inv .tenured
      rw [rounds_eq first.resting.inv]
      omega) success
  generalize sinceSaveMarks c .tenured (rounds σ₁) σ₁ = σ₂ at second promoted ⊢
  refine ⟨first.trans second, ?_⟩
  rcases second.progress with rfl | more
  · left
    simp [noAllocsSinceSaveMarks, survivors, promoted]
  · right
    rcases first.progress with rfl | less
    · exact more
    · exact lt_trans less more

theorem evacuateFollowersLoop_done (fuel : Nat)
    (enough : (start.room .toSpace).objects.length + (start.room .tenured).objects.length +
      start.sources.length < scannedCount σ + fuel)
    (success : (evacuateFollowersLoop c fuel σ).promotionFailed = false) :
    Advanced c start σ (evacuateFollowersLoop c fuel σ) ∧
      noAllocsSinceSaveMarks (evacuateFollowersLoop c fuel σ) = true := by
  induction fuel generalizing σ with
  | zero =>
    obtain ⟨moved, valid⟩ := resting.inv.valid
    have survivors := (resting.inv.saved .toSpace).2
    have promoted := (resting.inv.saved .tenured).2
    have bound := objects_total_le valid
    unfold scannedCount at enough
    omega
  | succ fuel ih =>
    rw [evacuateFollowersLoop] at success ⊢
    have before : (oopSinceSaveMarksIterate c σ).promotionFailed = false := by
      split at success
      · exact success
      · exact succeeded_before (evacuateFollowersLoop_operations fuel _) success
    obtain ⟨round, outcome⟩ := oopSinceSaveMarksIterate_done formed resting before
    split
    · rename_i caughtUp
      exact ⟨round, caughtUp⟩
    · rename_i grown
      rw [if_neg grown] at success
      have more := outcome.resolve_left grown
      obtain ⟨rest, caughtUp⟩ := ih round.resting (by omega) success
      exact ⟨round.trans rest, caughtUp⟩

theorem evacuateFollowers_done (success : (evacuateFollowers c σ).promotionFailed = false) :
    Advanced c start σ (evacuateFollowers c σ) ∧ CaughtUp (evacuateFollowers c σ) := by
  have before : (evacuateFollowersLoop c (rounds σ) σ).promotionFailed = false := by
    unfold evacuateFollowers at success
    dsimp only at success
    split at success
    · exact success
    · exact success
  obtain ⟨loop, quiet⟩ := evacuateFollowersLoop_done formed resting (rounds σ)
    (by
      have survivors := (resting.inv.saved .toSpace).1
      have promoted := (resting.inv.saved .tenured).1
      rw [rounds_eq resting.inv, scannedCount]
      omega) before
  have same : evacuateFollowers c σ = evacuateFollowersLoop c (rounds σ) σ := by
    unfold evacuateFollowers
    rw [if_pos loop.resting.stack]
  rw [same]
  exact ⟨loop, caughtUp_of_noAllocs quiet⟩

end ScavengePhases
