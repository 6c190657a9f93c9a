import TransGC.ScavengeInvariant
import TransGC.ScavengeOperations

/-!
# What the closures of a scavenge achieve

If no promotion fails, each closure is a sequence of steps that leaves the slot it was applied to
settled, and the scan of an object leaves every slot of it settled or pending on a discovered list.
A closure must not meet a slot twice; the scan of an object meets each of its slots once.
-/
namespace ScavengeClosures
open EdenTable MarkWord ObjectHeap ObjectMoves YoungScavenge ScavengeSteps ScavengeInvariant ScavengeOperations
open List

def Pending (σ : Scan) (s : Slot) : Prop :=
  ∃ kind r, s = .field r referentOffset ∧ r ∈ σ.discovered kind

def Handled (start : YoungHeap) (σ : Scan) (s : Slot) : Prop :=
  σ.words s ∉ start.sources ∨ Pending σ s

def OfObject (obj : Nat) (s : Slot) : Prop := ∃ offset, s = .field obj offset

/-- No referent of a discovered reference of the kind has been redirected. -/
def Fresh (c : Scavenger) (start : YoungHeap) (σ : Scan) (kind : ReferenceType) : Prop :=
  ∀ r ∈ σ.discovered kind, Unscanned c start σ (.field r referentOffset)

/-- The lists have gained nothing but `obj`, with a referent that has not been redirected. -/
def ListsAtMost (c : Scavenger) (start : YoungHeap) (σ τ : Scan) (obj : Nat) : Prop :=
  ∀ kind, ∀ r ∈ τ.discovered kind,
    r ∈ σ.discovered kind ∨ r = obj ∧ Unscanned c start τ (.field obj referentOffset)

structure Ready (c : Scavenger) (start : YoungHeap) (covers : Slot → Prop) (σ : Scan) (obj : Nat) :
    Prop where
  visible : ∀ offset, Visible σ (.field obj offset)
  unscanned : ∀ offset ∈ (σ.klass obj).slots, covers (.field obj offset) →
    Unscanned c start σ (.field obj offset)
  distinct : (σ.klass obj).slots.Nodup

variable {c : Scavenger} {start : YoungHeap} {touch covers : Slot → Prop} {loops : List LoopStep}
  {σ τ : Scan} {a obj : Nat} {d : Destination} {s : Slot}

/-- A reference leaves its list only if its referent is touched. -/
theorem steps_discovered (steps : Steps c start touch loops σ τ) {kind : ReferenceType} {r : Nat}
    (untouched : ¬ touch (.field r referentOffset)) (among : r ∈ σ.discovered kind) :
    r ∈ τ.discovered kind := by
  induction steps with
  | refl => exact among
  | @tail υ ω _ step ih =>
    cases step with
    | @copy d a _ _ _ =>
      obtain ⟨-, -, -, -, -, -, lists⟩ := evacuate_frame (σ := υ) (d := d) (a := a)
      rw [lists]
      exact ih
    | discover early listed new => exact mem_addDiscovered.mpr (.inr ih)
    | remove touched =>
      refine mem_removeDiscovered.mpr ⟨ih, ?_⟩
      rintro ⟨-, rfl⟩
      exact untouched touched
    | _ => exact ih

theorem discovered_subset (late : σ.discovering = false) (steps : Steps c start touch loops σ τ)
    {kind : ReferenceType} {r : Nat} (among : r ∈ τ.discovered kind) : r ∈ σ.discovered kind := by
  induction steps with
  | refl => exact among
  | @tail υ ω before step ih =>
    apply ih
    cases step with
    | @copy d a _ _ _ =>
      obtain ⟨-, -, -, -, -, -, lists⟩ := evacuate_frame (σ := υ) (d := d) (a := a)
      rw [lists] at among
      exact among
    | discover early listed new =>
      rw [steps_late late before] at early
      cases early
    | remove touched => exact (mem_removeDiscovered.mp among).1
    | _ => exact among

section

variable (formed : Startable c start)
include formed

theorem steps_not_source (inv : Inv c start σ) (steps : Steps c start touch loops σ τ)
    (visible : Visible σ s) (settled : σ.words s ∉ start.sources) : τ.words s ∉ start.sources := by
  rw [steps_settled formed inv steps visible settled]
  exact settled

theorem steps_handled (inv : Inv c start σ) (steps : Steps c start touch loops σ τ)
    (visible : Visible σ s) (untouched : ¬ touch s) (handled : Handled start σ s) :
    Handled start τ s := by
  rcases handled with settled | ⟨kind, r, rfl, among⟩
  · exact .inl (steps_not_source formed inv steps visible settled)
  · exact .inr ⟨kind, r, rfl, steps_discovered steps untouched among⟩

theorem steps_unscanned (inv : Inv c start σ) (steps : Steps c start touch loops σ τ)
    (visible : Visible σ s) (untouched : ¬ touch s) (unscanned : Unscanned c start σ s) :
    Unscanned c start τ s := by
  unfold Unscanned
  rw [steps_untouched formed inv steps visible untouched]
  exact unscanned

omit formed in
theorem listsAtMost_of_eq (same : τ.discovered = σ.discovered) : ListsAtMost c start σ τ obj := by
  intro kind r among
  rw [same] at among
  exact .inl among

theorem steps_ready (inv : Inv c start σ) (steps : Steps c start touch loops σ τ)
    (untouched : ∀ offset, ¬ touch (.field obj offset)) (ready : Ready c start covers σ obj) :
    Ready c start covers τ obj := by
  have klass := steps_klass formed inv steps (ready.visible 0)
  refine ⟨fun offset => steps_visible steps (ready.visible offset), ?_, ?_⟩
  · intro offset slot covered
    rw [klass] at slot
    exact steps_unscanned formed inv steps (ready.visible offset) (untouched offset)
      (ready.unscanned offset slot covered)
  · rw [klass]
    exact ready.distinct

/-! ### One slot -/

/-- What a closure leaves behind if it has dealt with the slot it was applied to. -/
structure Applied (c : Scavenger) (start : YoungHeap) (σ τ : Scan) (s : Slot) : Prop where
  steps : Steps c start (· = s) [] σ τ
  settled : τ.words s ∉ start.sources
  lists : τ.discovered = σ.discovered

theorem zero_not_source : 0 ∉ start.sources :=
  fun among => formed.source_ne_zero among rfl

theorem redirect_forwarded (inv : Inv c start σ) (visible : Visible σ s) (slot : IsSlot σ s)
    (among : σ.words s ∈ start.sources) (black : σ.isForwarded (σ.words s) = true) {target : Nat}
    (same : c.forwardee σ.toYoungHeap (σ.words s) = target) :
    Applied c start σ (σ.store s target) s where
  steps := by
    refine .single ?_
    rw [← same]
    exact .redirect rfl visible slot among black
  settled := by
    obtain ⟨moved, valid⟩ := inv.valid
    have own : (σ.store s target).words s = target := Function.update_self ..
    obtain ⟨m, listed, -, points⟩ := valid.target_of_forwarded among black
    rw [own, ← same, ← points]
    exact valid.target_not_source formed.toWellFormed listed
  lists := rfl

omit formed in
theorem fits_of_destination (chosen : destination c σ a = some d) : fits σ d a = true := by
  unfold destination at chosen
  split at chosen
  · rename_i young
    cases chosen
    exact (Bool.and_eq_true_iff.mp young).2
  · split at chosen
    · rename_i old
      cases chosen
      exact (Bool.and_eq_true_iff.mp old).1
    · cases chosen

theorem redirect_applied {drain : Scan → Scan} (drains : ∀ σ, Operations c σ (drain σ))
    (inv : Inv c start σ) (visible : Visible σ s) (slot : IsSlot σ s)
    (among : σ.words s ∈ start.sources) (success : (redirect c drain σ s).promotionFailed = false) :
    Applied c start σ (redirect c drain σ s) s := by
  obtain ⟨moved, valid⟩ := inv.valid
  unfold redirect at success ⊢
  dsimp only at success ⊢
  split
  · rename_i black
    exact redirect_forwarded formed inv visible slot among black rfl
  · rename_i unmarked
    have white : σ.isForwarded (σ.words s) = false := by simpa using unmarked
    rw [if_neg unmarked] at success
    unfold copyToSurvivorSpace at success ⊢
    split
    · rename_i d chosen
      have room := fits_of_destination chosen
      have step : Step c start (· = s) [] σ (evacuate σ d (σ.words s)) := .copy among white room
      have points : (evacuate σ d (σ.words s)).words s = σ.words s := by
        refine (evacuate_moves σ d _).words_of_ne ?_
        rintro offset rfl
        exact known_not_top valid (valid.fresh_of_fits formed.toWellFormed among room)
          (known_of_visible visible) rfl
      have pointer : (evacuate σ d (σ.words s)).mark (σ.words s) =
          encodePointerAsMark (8 * (σ.room d).top) := (evacuate_moves σ d _).mark_self
      have second : Applied c start (evacuate σ d (σ.words s))
          ((evacuate σ d (σ.words s)).store s (σ.room d).top) s := by
        apply redirect_forwarded formed (inv_step formed inv step) (step_visible step visible)
        · exact steps_isSlot formed inv (.single step) visible slot
        · rwa [points]
        · rw [points]
          exact isForwarded_of_mark pointer
        · rw [points]
          exact forwardee_of_mark pointer
      refine ⟨.head step second.steps, second.settled, ?_⟩
      obtain ⟨-, -, -, -, -, -, lists⟩ := evacuate_frame (σ := σ) (d := d) (a := σ.words s)
      exact second.lists.trans lists
    · rename_i none
      rw [none] at success
      have failed : (drain (handlePromotionFailure c σ (σ.words s))).promotionFailed = true :=
        failed_of_operations (drains _) rfl
      have kept : (drain (handlePromotionFailure c σ (σ.words s))).promotionFailed = false := success
      rw [failed] at kept
      cases kept

theorem fastScan_applied {drain : Scan → Scan} (drains : ∀ σ, Operations c σ (drain σ))
    {barrier : Option Region} (inv : Inv c start σ) (visible : Visible σ s) (slot : IsSlot σ s)
    (unscanned : Unscanned c start σ s)
    (success : (fastScan c drain barrier σ s).promotionFailed = false) :
    Applied c start σ (fastScan c drain barrier σ s) s := by
  have marks : ∀ υ : Scan,
      Operations c υ (barrier.elim υ fun region => doBarrier c region υ s) := by
    intro υ
    cases barrier with
    | none => exact .refl
    | some region => exact .single (.card (c.doBarrier_marks υ.heap region s))
  have marked : ∀ {υ : Scan}, Applied c start σ υ s →
      Applied c start σ (barrier.elim υ fun region => doBarrier c region υ s) s := by
    intro υ applied
    cases barrier with
    | none => exact applied
    | some region => exact ⟨applied.steps.tail (.card _), applied.settled, applied.lists⟩
  unfold fastScan at success ⊢
  split
  · rename_i null
    exact ⟨.refl, by rw [null]; exact zero_not_source formed, rfl⟩
  · rename_i nonNull
    rw [if_neg nonNull] at success
    split
    · rename_i inside
      rw [if_pos inside] at success
      have before := succeeded_before (marks _) (succeeded_before (marks _) success)
      exact marked (marked
        (redirect_applied formed drains inv visible slot (unscanned inside) before))
    · rename_i elsewhere
      exact marked ⟨.refl, fun among => elsewhere (formed.sources _ among).1, rfl⟩

/-! ### The scan of an object -/

/-- If no promotion fails: a sequence of steps that settles a slot not met before, if it is one of
those the closure is there for. -/
structure Scans (c : Scavenger) (start : YoungHeap) (covers : Slot → Prop)
    (doOop : Scan → Slot → Scan) : Prop where
  operations : ∀ σ s, Operations c σ (doOop σ s)
  steps : ∀ {σ s}, Inv c start σ → Visible σ s → IsSlot σ s →
    (covers s → Unscanned c start σ s) → (doOop σ s).promotionFailed = false →
      Steps c start (· = s) [] σ (doOop σ s)
  settles : ∀ {σ s}, Inv c start σ → Visible σ s → IsSlot σ s → covers s →
    Unscanned c start σ s → (doOop σ s).promotionFailed = false →
      (doOop σ s).words s ∉ start.sources
  lists : ∀ {σ s}, Inv c start σ → Visible σ s → IsSlot σ s →
    (covers s → Unscanned c start σ s) → (doOop σ s).promotionFailed = false →
      (doOop σ s).discovered = σ.discovered

variable {doOop : Scan → Slot → Scan}

theorem scanSlot_scans (barrier : Option Region) :
    Scans c start (fun _ => True) (scanSlot c barrier) where
  operations σ s := scanSlot_operations barrier σ s
  steps inv visible slot unscanned success :=
    (fastScan_applied formed drain_operations inv visible slot (unscanned trivial) success).steps
  settles inv visible slot _ unscanned success :=
    (fastScan_applied formed drain_operations inv visible slot unscanned success).settled
  lists inv visible slot unscanned success :=
    (fastScan_applied formed drain_operations inv visible slot (unscanned trivial) success).lists

theorem Scans.fold (scans : Scans c start covers doOop) (slots : List Slot)
    (distinct : slots.Nodup) (inv : Inv c start σ) (visible : ∀ s ∈ slots, Visible σ s)
    (isSlot : ∀ s ∈ slots, IsSlot σ s) (unscanned : ∀ s ∈ slots, covers s → Unscanned c start σ s)
    (success : (slots.foldl doOop σ).promotionFailed = false) :
    Steps c start (· ∈ slots) [] σ (slots.foldl doOop σ) ∧
      (∀ s ∈ slots, covers s → (slots.foldl doOop σ).words s ∉ start.sources) ∧
      (slots.foldl doOop σ).discovered = σ.discovered := by
  induction slots generalizing σ with
  | nil => exact ⟨.refl, by simp, rfl⟩
  | cons s slots ih =>
    obtain ⟨missing, distinct⟩ := nodup_cons.mp distinct
    have own := succeeded_before (foldl_operations scans.operations slots (doOop σ s)) success
    have seen := visible s mem_cons_self
    have slot := isSlot s mem_cons_self
    have new := unscanned s mem_cons_self
    have first := scans.steps inv seen slot new own
    have after := inv_steps formed inv first
    obtain ⟨rest, settled, lists⟩ := ih distinct after
      (fun t among => steps_visible first (visible t (mem_cons_of_mem s among)))
      (fun t among => steps_isSlot formed inv first (visible t (mem_cons_of_mem s among))
        (isSlot t (mem_cons_of_mem s among)))
      (fun t among covered => by
        apply steps_unscanned formed inv first (visible t (mem_cons_of_mem s among))
        · rintro rfl
          exact missing among
        · exact unscanned t (mem_cons_of_mem s among) covered)
      success
    refine ⟨.trans (steps_more ?_ (nil_subset _) first)
      (steps_more ?_ (nil_subset _) rest), fun t among covered => ?_,
      lists.trans (scans.lists inv seen slot new own)⟩
    · rintro t rfl
      exact mem_cons_self
    · exact fun t among => mem_cons_of_mem s among
    · rcases mem_cons.mp among with rfl | later
      · exact steps_not_source formed after rest (steps_visible first seen)
          (scans.settles inv seen slot covered (new covered) own)
      · exact settled t later covered

theorem survivor_of_inGen0 (inv : Inv c start σ) {offset : Nat}
    (visible : Visible σ (.field obj offset)) (inside : c.inGen0 obj = true) :
    obj ∈ (σ.room .toSpace).objects.take (σ.savedMark .toSpace) := by
  obtain ⟨moved, valid⟩ := inv.valid
  have young := inGen0_iff.mp inside
  have gen1 := formed.gen1Below
  have old := formed.oldAbove
  have limit := (formed.topInside .tenured).2
  have above := formed.permAbove
  rcases visible with eden | permanent | ⟨d, scanned⟩
  · rw [valid.edenObjects] at eden
    have := formed.edens obj eden
    omega
  · rw [valid.perm] at permanent
    have := formed.perm obj permanent
    omega
  · cases d with
    | toSpace => exact scanned
    | tenured =>
      have place := (valid.objects_inRoom formed.toWellFormed (mem_of_mem_take scanned)).1
      obtain ⟨low, -⟩ := place
      omega

omit formed in
theorem mem_slots_referent {klass : Klass} {kind : ReferenceType}
    (ofKind : klass.reference = some kind) :
    referentOffset ∈ klass.slots ∧ nextOffset ∈ klass.slots := by
  simp [Klass.slots, ofKind]

theorem Scans.iterateReference (scans : Scans c start covers doOop) {kind : ReferenceType}
    (ofKind : (σ.klass obj).reference = some kind)
    (visible : ∀ offset, Visible σ (.field obj offset))
    (unscanned : ∀ offset, offset = referentOffset ∨ offset = nextOffset →
      covers (.field obj offset) → Unscanned c start σ (.field obj offset))
    (whole : c.inGen0 obj = true → covers (.field obj referentOffset)) (inv : Inv c start σ)
    (success : (iterateReference c doOop σ obj kind).promotionFailed = false) :
    Steps c start (· ∈ [.field obj referentOffset, .field obj nextOffset]) [] σ
        (iterateReference c doOop σ obj kind) ∧
      (∀ offset, offset = referentOffset ∨ offset = nextOffset → covers (.field obj offset) →
        Handled start (iterateReference c doOop σ obj kind) (.field obj offset)) ∧
      ListsAtMost c start σ (iterateReference c doOop σ obj kind) obj := by
  obtain ⟨referentSlot, nextSlot⟩ := mem_slots_referent ofKind
  have apart : referentOffset ≠ nextOffset := by decide
  unfold YoungScavenge.iterateReference at success ⊢
  dsimp only at success ⊢
  split
  · rename_i null
    rw [if_pos null] at success
    have steps := scans.steps inv (visible nextOffset) nextSlot
      (unscanned nextOffset (.inr rfl)) success
    refine ⟨steps_more ?_ (nil_subset _) steps, ?_, listsAtMost_of_eq
      (scans.lists inv (visible nextOffset) nextSlot (unscanned nextOffset (.inr rfl)) success)⟩
    · rintro s rfl
      simp
    · rintro offset (rfl | rfl) covered
      · left
        have settled : σ.words (.field obj referentOffset) ∉ start.sources := by
          rw [null]
          exact zero_not_source formed
        exact steps_not_source formed inv steps (visible referentOffset) settled
      · exact .inl (scans.settles inv (visible nextOffset) nextSlot covered
          (unscanned nextOffset (.inr rfl) covered) success)
  · rename_i nonNull
    rw [if_neg nonNull] at success
    split
    · rename_i ω found
      split at found
      · cases found
      · obtain ⟨discovering, active, region, policy, outcome⟩ := discoverReference_cases found
        have settledNext : ∀ υ : Scan, υ.words = σ.words →
            Handled start υ (.field obj nextOffset) := by
          intro υ same
          left
          rw [same, active]
          exact zero_not_source formed
        rcases outcome with ⟨among, rfl⟩ | ⟨new, typed, rfl⟩
        · refine ⟨.refl, ?_, listsAtMost_of_eq rfl⟩
          rintro offset (rfl | rfl) -
          · exact .inr ⟨kind, obj, rfl, among⟩
          · exact settledNext _ rfl
        · have listed : Listed c σ kind obj :=
            ⟨survivor_of_inGen0 formed inv (visible 0) region, ofKind, active, policy, typed⟩
          refine ⟨.single (.discover discovering listed new), ?_, ?_⟩
          · rintro offset (rfl | rfl) -
            · exact .inr ⟨kind, obj, rfl, mem_addDiscovered.mpr (.inl ⟨rfl, rfl⟩)⟩
            · exact settledNext _ rfl
          · intro kind' r among
            rcases mem_addDiscovered.mp among with ⟨-, rfl⟩ | earlier
            · exact .inr ⟨rfl, unscanned _ (.inl rfl) (whole region)⟩
            · exact .inl earlier
    · rename_i found
      rw [found] at success
      obtain ⟨steps, settled, lists⟩ := scans.fold formed
        [.field obj referentOffset, .field obj nextOffset] (by simp [apart]) inv
        (by simp [visible]) (by simpa using ⟨referentSlot, nextSlot⟩)
        (by simpa using ⟨unscanned _ (.inl rfl), unscanned _ (.inr rfl)⟩) success
      refine ⟨steps, ?_, listsAtMost_of_eq lists⟩
      rintro offset (rfl | rfl) covered
      · exact .inl (settled _ (by simp) covered)
      · exact .inl (settled _ (by simp) covered)

end

theorem oops_subset_slots (klass : Klass) : klass.oops ⊆ klass.slots := by
  intro offset among
  unfold Klass.slots
  split
  · exact mem_append_left _ among
  · exact among

/-- The offsets of a reference class that the oop map leaves out. -/
theorem slots_of_reference {klass : Klass} {kind : ReferenceType}
    (ofKind : klass.reference = some kind) :
    klass.slots = klass.oops ++ [referentOffset, nextOffset] := by
  simp [Klass.slots, ofKind]

theorem Scans.oopIterate (formed : Startable c start) (scans : Scans c start covers doOop)
    (ready : Ready c start covers σ obj)
    (whole : c.inGen0 obj = true → covers (.field obj referentOffset)) (inv : Inv c start σ)
    (success : (oopIterate c doOop σ obj).promotionFailed = false) :
    Steps c start (OfObject obj) [] σ (oopIterate c doOop σ obj) ∧
      (∀ offset ∈ (σ.klass obj).slots, covers (.field obj offset) →
        Handled start (oopIterate c doOop σ obj) (.field obj offset)) ∧
      ListsAtMost c start σ (oopIterate c doOop σ obj) obj := by
  have distinct : (σ.klass obj).oops.Nodup := by
    refine ready.distinct.sublist ?_
    unfold Klass.slots
    split
    · exact sublist_append_left _ _
    · exact Sublist.refl _
  have ordinary := scans.fold formed ((σ.klass obj).oops.map (Slot.field obj))
    (distinct.map fun _ _ same => (Slot.field.inj same).2) inv
    (by simpa using fun offset _ => ready.visible offset)
    (by simpa [IsSlot] using fun offset among => oops_subset_slots _ among)
    (by simpa using fun offset among => ready.unscanned offset (oops_subset_slots _ among))
  rw [foldl_map] at ordinary
  unfold YoungScavenge.oopIterate at success ⊢
  dsimp only at success ⊢
  split
  · rename_i plain
    simp only [plain] at success
    obtain ⟨first, settled, lists⟩ := ordinary success
    rw [steps_klass formed inv first (ready.visible 0)] at plain
    refine ⟨steps_more ?_ (nil_subset _) first, fun offset slot covered => ?_,
      listsAtMost_of_eq lists⟩
    · rintro s among
      obtain ⟨offset, -, rfl⟩ := mem_map.mp among
      exact ⟨offset, rfl⟩
    · rw [Klass.slots, plain] at slot
      exact .inl (settled _ (mem_map_of_mem slot) covered)
  · rename_i kind ofKind
    simp only [ofKind] at success
    obtain ⟨first, settled, unchanged⟩ := ordinary
      (succeeded_before (iterateReference_operations scans.operations _ obj kind) success)
    have klass := steps_klass formed inv first (ready.visible 0)
    have after := inv_steps formed inv first
    have slots := slots_of_reference (klass ▸ ofKind)
    have special : ∀ offset, offset = referentOffset ∨ offset = nextOffset →
        offset ∈ (σ.klass obj).slots ∧ offset ∉ (σ.klass obj).oops := by
      have apart := ready.distinct
      rw [slots] at apart ⊢
      rintro offset (rfl | rfl)
      · exact ⟨by simp, fun among => disjoint_of_nodup_append apart among (by simp)⟩
      · exact ⟨by simp, fun among => disjoint_of_nodup_append apart among (by simp)⟩
    obtain ⟨second, handled, lists⟩ := scans.iterateReference formed ofKind
      (fun offset => steps_visible first (ready.visible offset))
      (fun offset last covered => by
        apply steps_unscanned formed inv first (ready.visible offset)
        · simpa using (special offset last).2
        · exact ready.unscanned offset (special offset last).1 covered)
      whole after success
    refine ⟨.trans (steps_more ?_ (nil_subset _) first)
      (steps_more ?_ (nil_subset _) second), fun offset slot covered => ?_, ?_⟩
    · rintro s among
      obtain ⟨offset, -, rfl⟩ := mem_map.mp among
      exact ⟨offset, rfl⟩
    · rintro s among
      simp only [mem_cons, not_mem_nil, or_false] at among
      rcases among with rfl | rfl
      · exact ⟨referentOffset, rfl⟩
      · exact ⟨nextOffset, rfl⟩
    · rw [slots] at slot
      rcases mem_append.mp slot with oop | last
      · exact .inl (steps_not_source formed after second
          (steps_visible first (ready.visible offset)) (settled _ (mem_map_of_mem oop) covered))
      · exact handled offset (by simpa using last) covered
    · unfold ListsAtMost at lists ⊢
      rw [unchanged] at lists
      exact lists

end ScavengeClosures
