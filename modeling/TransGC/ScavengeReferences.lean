import TransGC.ScavengePhases

/-!
# Processing the references a scavenge has discovered

A list of discovered references is walked up to three times. The first walk, for soft references
only, takes off those whose referent the policy keeps, the second those whose referent was reached;
the third clears the referents that are left or keeps them alive. A referent must not be looked at
again once brought up to date, because a copy in to-space would count as dead.
-/
namespace ScavengeReferences
open EdenTable MarkWord ObjectHeap YoungScavenge ScavengeSteps ScavengeInvariant ScavengeOperations
  ScavengeClosures ScavengePhases Function List

variable {c : Scavenger} {start : YoungHeap} {touch : Slot → Prop} {loops : List LoopStep}
  {kind : ReferenceType} {σ τ υ : Scan} {a r : Nat} {s : Slot} {moved : List Move}

/-! ### Keeping a referent alive -/

theorem source_not_inToSpace (formed : Startable c start)
    (valid : Valid c start σ.toYoungHeap moved) (among : a ∈ start.sources) :
    inToSpace σ a = false := by
  obtain ⟨bottom, limit⟩ := valid.span .toSpace
  have apart := (formed.sources a among).2
  simp only [inToSpace, Bool.and_eq_false_iff, decide_eq_false_iff_not]
  omega

theorem keepAlive_applied (formed : Startable c start) (inv : Inv c start σ)
    (visible : Visible σ s) (slot : IsSlot σ s) (unscanned : Unscanned c start σ s)
    (success : (keepAlive c σ s).promotionFailed = false) :
    Applied c start σ (keepAlive c σ s) s := by
  obtain ⟨moved, valid⟩ := inv.valid
  unfold keepAlive at success ⊢
  dsimp only at success ⊢
  have brought : Applied c start σ (if c.inGen0 (σ.words s) && !inToSpace σ (σ.words s) then
      redirect c (drain c) σ s else σ) s := by
    split
    · rename_i young
      rw [if_pos young] at success
      have among := unscanned (Bool.and_eq_true_iff.mp young).1
      exact redirect_applied formed drain_operations inv visible slot among success
    · rename_i kept
      refine ⟨.refl, fun among => kept ?_, rfl⟩
      rw [(formed.sources _ among).1, source_not_inToSpace formed valid among]
      rfl
  generalize (if c.inGen0 (σ.words s) && !inToSpace σ (σ.words s) then
    redirect c (drain c) σ s else σ) = υ at brought ⊢
  exact ⟨brought.steps.tail (.card _), brought.settled, brought.lists⟩

/-- Nothing is copied for a referent that was reached. -/
theorem keepAlive_mark (alive : isAlive c σ (σ.words s) = true) :
    (keepAlive c σ s).mark = σ.mark := by
  unfold keepAlive
  dsimp only
  split
  · rename_i young
    have black : σ.isForwarded (σ.words s) = true := by
      simpa [isAlive, (Bool.and_eq_true_iff.mp young).1] using alive
    unfold redirect
    rw [if_pos black]
    rfl
  · rfl

/-! ### References on a list -/

/-- The target is null, or an object that was not reached. -/
def Dead (start : YoungHeap) (σ : Scan) (s : Slot) : Prop :=
  σ.words s = 0 ∨ σ.words s ∈ start.sources ∧ σ.isForwarded (σ.words s) = false

theorem dead_of_not_alive (unscanned : Unscanned c start σ s)
    (gone : ¬ isAlive c σ (σ.words s) = true) : Dead start σ s := by
  have both : c.inGen0 (σ.words s) = true ∧ σ.isForwarded (σ.words s) = false := by
    simpa [isAlive] using gone
  exact .inr ⟨unscanned both.1, both.2⟩

theorem unscanned_of_dead (formed : Startable c start) (dead : Dead start σ s) :
    Unscanned c start σ s := by
  intro inside
  rcases dead with null | ⟨among, -⟩
  · have nonNull := formed.nonNull
    have young := inGen0_iff.mp inside
    omega
  · exact among

theorem steps_listed (formed : Startable c start) (inv : Inv c start σ)
    (steps : Steps c start touch loops σ τ) (listed : Listed c σ kind r) : Listed c τ kind r := by
  refine steps_keep (P := fun υ => Listed c υ kind r) formed inv steps ?_ listed
  intro υ ω inv step listed
  obtain ⟨moved, valid⟩ := inv.valid
  exact listed_step formed step valid listed

theorem discovered_of_pending (inv : Inv c start σ) (listed : Listed c σ kind r)
    (pending : Pending σ (.field r referentOffset)) : r ∈ σ.discovered kind := by
  obtain ⟨kind', r', same, among⟩ := pending
  obtain rfl := (Slot.field.inj same).1
  obtain rfl : kind' = kind := by
    have other := (inv.lists kind' r among).ofKind
    exact Option.some.inj (other.symm.trans listed.ofKind)
  exact among

theorem isSlot_of_listed (listed : Listed c σ kind r) : IsSlot σ (.field r referentOffset) :=
  (mem_slots_referent listed.ofKind).1

theorem clearable_of_listed (listed : Listed c σ kind r) (weak : kind = .soft ∨ kind = .weak) :
    Clearable c σ (.field r referentOffset) := by
  refine ⟨rfl, mem_of_mem_take listed.survivor, listed.active, ?_⟩
  rcases weak with rfl | rfl
  · exact .inr ⟨listed.ofKind, listed.policy rfl⟩
  · exact .inl listed.ofKind

/-- The slots that a walk over a list is about. -/
def referents (σ : Scan) (kind : ReferenceType) : List Slot :=
  (σ.discovered kind).map fun r => .field r referentOffset

theorem mem_referents : .field r referentOffset ∈ referents σ kind ↔ r ∈ σ.discovered kind := by
  simp [referents]

theorem referents_nodup (inv : Inv c start σ) (kind : ReferenceType) :
    (referents σ kind).Nodup :=
  (inv.once kind).map fun _ _ same => (Slot.field.inj same).1

theorem referents_subset (late : σ.discovering = false) (steps : Steps c start touch loops σ τ)
    (among : s ∈ referents τ kind) : s ∈ referents σ kind := by
  obtain ⟨r, listed, rfl⟩ := mem_map.mp among
  exact mem_referents.mpr (discovered_subset late steps listed)

/-! ### Walks -/

/-- A round writes one slot; it needs `Q` of its item and makes `P` of it hold, and neither is lost
by the rounds for other items. -/
structure Walk {α : Type} (c : Scavenger) (start : YoungHeap) (slot : α → Slot)
    (round : Scan → α → Scan) (Round : α → Scan → Scan → Prop) (Q P : Scan → α → Prop) : Prop where
  operations : ∀ σ x, Operations c σ (round σ x)
  each : ∀ {σ x}, Inv c start σ → σ.discovering = false → Visible σ (slot x) → Q σ x →
    (round σ x).promotionFailed = false → Round x σ (round σ x) ∧ P (round σ x) x
  steps : ∀ {x σ τ}, Round x σ τ → Steps c start (· = slot x) [] σ τ
  before : ∀ {σ τ x y}, slot y ≠ slot x → Inv c start σ → σ.discovering = false →
    Visible σ (slot y) → Round x σ τ → Q σ y → Q τ y
  after : ∀ {σ τ x y}, slot y ≠ slot x → Inv c start σ → σ.discovering = false →
    Visible σ (slot y) → Round x σ τ → P σ y → P τ y

variable (formed : Startable c start)
include formed

theorem Walk.fold {α : Type} {slot : α → Slot} {round : Scan → α → Scan}
    {Round : α → Scan → Scan → Prop} {Q P : Scan → α → Prop}
    (walk : Walk c start slot round Round Q P) (items : List α)
    (distinct : (items.map slot).Nodup) (inv : Inv c start σ) (late : σ.discovering = false)
    (visible : ∀ x ∈ items, Visible σ (slot x)) (due : ∀ x ∈ items, Q σ x)
    (success : (items.foldl round σ).promotionFailed = false) :
    Steps c start (· ∈ items.map slot) [] σ (items.foldl round σ) ∧
      (∀ x ∈ items, P (items.foldl round σ) x) ∧
      ∀ y, slot y ∉ items.map slot → Visible σ (slot y) → P σ y → P (items.foldl round σ) y := by
  induction items generalizing σ with
  | nil => exact ⟨.refl, by simp, fun _ _ _ holds => holds⟩
  | cons x items ih =>
    obtain ⟨missing, distinct⟩ := nodup_cons.mp distinct
    have own := succeeded_before (foldl_operations walk.operations items (round σ x)) success
    obtain ⟨first, done⟩ := walk.each inv late (visible x mem_cons_self)
      (due x mem_cons_self) own
    have steps := walk.steps first
    obtain ⟨rest, results, keeps⟩ := ih distinct (inv_steps formed inv steps)
      (steps_late late steps)
      (fun y among => steps_visible steps (visible y (mem_cons_of_mem x among)))
      (fun y among => by
        have apart : slot y ≠ slot x := fun same => missing (same ▸ mem_map_of_mem among)
        exact walk.before apart inv late (visible y (mem_cons_of_mem x among)) first
          (due y (mem_cons_of_mem x among)))
      success
    refine ⟨.trans (steps_more ?_ (nil_subset _) steps)
      (steps_more ?_ (nil_subset _) rest), ?_, ?_⟩
    · rintro s rfl
      exact mem_cons_self
    · exact fun s among => mem_cons_of_mem _ among
    · intro y among
      rcases mem_cons.mp among with rfl | later
      · exact keeps y missing (steps_visible steps (visible y mem_cons_self)) done
      · exact results y later
    · intro y outside seen holds
      rw [map_cons, mem_cons, not_or] at outside
      exact keeps y outside.2 (steps_visible steps seen)
        (walk.after outside.1 inv late seen first holds)

/-! ### The walks over a list -/

/-- A round writes the referent of its reference. -/
def Writes (c : Scavenger) (start : YoungHeap) (r : Nat) (σ τ : Scan) : Prop :=
  Steps c start (· = .field r referentOffset) [] σ τ

/-- A round in which nothing is forwarded. -/
structure Calm (c : Scavenger) (start : YoungHeap) (r : Nat) (σ τ : Scan) : Prop where
  writes : Writes c start r σ τ
  mark : τ.mark = σ.mark

theorem Calm.dead (apart : s ≠ .field r referentOffset) (inv : Inv c start σ)
    (visible : Visible σ s) (calm : Calm c start r σ τ) (dead : Dead start σ s) :
    Dead start τ s := by
  unfold Dead Memory.isForwarded at dead ⊢
  rw [steps_untouched formed inv calm.writes visible apart, calm.mark]
  exact dead

/-- A reference on the list whose referent has not been brought up to date. -/
def Remains (c : Scavenger) (start : YoungHeap) (kind : ReferenceType) (σ : Scan) (r : Nat) : Prop :=
  r ∈ σ.discovered kind ∧ Unscanned c start σ (.field r referentOffset)

theorem Remains.later {other : Nat}
    (apart : Slot.field r referentOffset ≠ .field other referentOffset) (inv : Inv c start σ)
    (visible : Visible σ (.field r referentOffset)) (writes : Writes c start other σ τ)
    (remains : Remains c start kind σ r) : Remains c start kind τ r :=
  ⟨steps_discovered writes apart remains.1, steps_unscanned formed inv writes visible apart remains.2⟩

/-- A walk over a list none of whose referents has been brought up to date. -/
theorem Walk.list {round : Scan → Nat → Scan} {Round : Nat → Scan → Scan → Prop}
    {P : Scan → Nat → Prop} (walk : Walk c start (fun r => .field r referentOffset) round Round
      (Remains c start kind) P) (inv : Inv c start σ) (late : σ.discovering = false)
    (fresh : Fresh c start σ kind)
    (success : ((σ.discovered kind).foldl round σ).promotionFailed = false) :
    Steps c start (· ∈ referents σ kind) [] σ ((σ.discovered kind).foldl round σ) ∧
      ∀ r ∈ σ.discovered kind, P ((σ.discovered kind).foldl round σ) r := by
  obtain ⟨steps, done, -⟩ := walk.fold formed (σ.discovered kind) (referents_nodup inv kind) inv late
    (fun r among => visible_of_listed (inv.lists kind r among))
    (fun r among => ⟨among, fresh r among⟩) success
  exact ⟨steps, done⟩

/-- Of a reference that is still on the list `D` holds, the others are settled. -/
structure Sorted (start : YoungHeap) (kind : ReferenceType) (D : Scan → Slot → Prop) (σ : Scan)
    (r : Nat) : Prop where
  handled : Handled start σ (.field r referentOffset)
  left : r ∈ σ.discovered kind → D σ (.field r referentOffset)

theorem Sorted.later {D : Scan → Slot → Prop} {other : Nat}
    (apart : Slot.field r referentOffset ≠ .field other referentOffset) (inv : Inv c start σ)
    (late : σ.discovering = false) (visible : Visible σ (.field r referentOffset))
    (writes : Writes c start other σ τ)
    (keeps : D σ (.field r referentOffset) → D τ (.field r referentOffset))
    (sorted : Sorted start kind D σ r) : Sorted start kind D τ r where
  handled := steps_handled formed inv writes visible apart sorted.handled
  left among := keeps (sorted.left (discovered_subset late writes among))

/-- A reference is taken off and its referent brought up to date. -/
theorem keep_removed {D : Scan → Slot → Prop} (inv : Inv c start σ)
    (remains : Remains c start kind σ r) (success : (keepAlive c (σ.removeDiscovered kind r)
      (.field r referentOffset)).promotionFailed = false) :
    Writes c start r σ (keepAlive c (σ.removeDiscovered kind r) (.field r referentOffset)) ∧
      Sorted start kind D (keepAlive c (σ.removeDiscovered kind r) (.field r referentOffset)) r := by
  have listed := inv.lists kind r remains.1
  have visible : Visible σ (.field r referentOffset) := visible_of_listed listed
  have removes : Step c start (· = .field r referentOffset) [] σ (σ.removeDiscovered kind r) :=
    .remove rfl
  have applied := keepAlive_applied formed (inv_step formed inv removes)
    (step_visible removes visible)
    (steps_isSlot formed inv (.single removes) visible (isSlot_of_listed listed)) remains.2 success
  refine ⟨.head removes applied.steps, .inl applied.settled, fun among => ?_⟩
  rw [applied.lists] at among
  exact absurd ⟨rfl, rfl⟩ (mem_removeDiscovered.mp among).2

def phase1Round (c : Scavenger) (shouldClear : Nat → Bool) (kind : ReferenceType) (σ : Scan)
    (r : Nat) : Scan :=
  let referent := σ.words (.field r referentOffset)
  if referent ≠ 0 ∧ isAlive c σ referent = false ∧ shouldClear r = false then
    keepAlive c (((σ.removeDiscovered kind r).store (.field r nextOffset) 0))
      (.field r referentOffset)
  else σ

theorem phase1_walk (shouldClear : Nat → Bool) (kind : ReferenceType) :
    Walk c start (fun r => .field r referentOffset) (phase1Round c shouldClear kind)
      (Writes c start) (Remains c start kind) (Sorted start kind (Unscanned c start)) where
  operations σ r := by
    unfold phase1Round
    dsimp only
    split
    · refine .head (.remove kind r) ?_
      exact .head (.store _ _) (keepAlive_operations _ _)
    · exact .refl
  each {σ r} inv late visible remains success := by
    unfold phase1Round at success ⊢
    dsimp only at success ⊢
    -- the reference is active, so its `next` is null already
    have active : (σ.removeDiscovered kind r).store (.field r nextOffset) 0 =
        σ.removeDiscovered kind r := by
      have null : (σ.removeDiscovered kind r).words (.field r nextOffset) = 0 :=
        (inv.lists kind r remains.1).active
      rw [Scan.store, Memory.store, ← null, update_eq_self]
    rw [active] at success ⊢
    split
    · rename_i kept
      rw [if_pos kept] at success
      exact keep_removed formed inv remains success
    · exact ⟨.refl, .inr ⟨kind, r, rfl, remains.1⟩, fun _ => remains.2⟩
  steps writes := writes
  before apart inv _ visible writes remains := remains.later formed apart inv visible writes
  after apart inv late visible writes sorted :=
    sorted.later formed apart inv late visible writes
      (steps_unscanned formed inv writes visible apart)

def phase2Round (c : Scavenger) (kind : ReferenceType) (σ : Scan) (r : Nat) : Scan :=
  if isAlive c σ (σ.words (.field r referentOffset)) then
    keepAlive c (σ.removeDiscovered kind r) (.field r referentOffset)
  else σ

theorem phase2_walk (kind : ReferenceType) :
    Walk c start (fun r => .field r referentOffset) (phase2Round c kind) (Calm c start)
      (Remains c start kind) (Sorted start kind (Dead start)) where
  operations σ r := by
    unfold phase2Round
    split
    · exact .head (.remove kind r) (keepAlive_operations _ _)
    · exact .refl
  each {σ r} inv late visible remains success := by
    unfold phase2Round at success ⊢
    split
    · rename_i alive
      rw [if_pos alive] at success
      obtain ⟨writes, sorted⟩ := keep_removed (D := Dead start) formed inv remains success
      have same : isAlive c (σ.removeDiscovered kind r)
          ((σ.removeDiscovered kind r).words (.field r referentOffset)) = true := alive
      exact ⟨⟨writes, keepAlive_mark same⟩, sorted⟩
    · rename_i gone
      exact ⟨⟨.refl, rfl⟩, .inr ⟨kind, r, rfl, remains.1⟩,
        fun _ => dead_of_not_alive remains.2 gone⟩
  steps calm := calm.writes
  before apart inv _ visible calm remains := remains.later formed apart inv visible calm.writes
  after apart inv late visible calm sorted :=
    sorted.later formed apart inv late visible calm.writes (calm.dead formed apart inv visible)

/-! ### The last walk -/

theorem clear_walk (weak : kind = .soft ∨ kind = .weak) :
    Walk c start (fun r => .field r referentOffset)
      (fun σ r => σ.store (.field r referentOffset) 0) (Calm c start)
      (fun σ r => r ∈ σ.discovered kind ∧ Dead start σ (.field r referentOffset))
      (fun σ r => σ.words (.field r referentOffset) ∉ start.sources) where
  operations σ r := .single (.store _ _)
  each {σ r} inv late visible due _ := by
    have listed := inv.lists kind r due.1
    refine ⟨⟨.single (.clear rfl visible (isSlot_of_listed listed) late
      (clearable_of_listed listed weak) due.2), rfl⟩, ?_⟩
    have zero : (σ.store (.field r referentOffset) 0).words (.field r referentOffset) = 0 :=
      update_self ..
    rw [zero]
    exact zero_not_source formed
  steps calm := calm.writes
  before apart inv _ visible calm due :=
    ⟨steps_discovered calm.writes apart due.1, calm.dead formed apart inv visible due.2⟩
  after _ inv _ visible calm settled := steps_not_source formed inv calm.writes visible settled

theorem keep_walk (kind : ReferenceType) :
    Walk c start (fun r => .field r referentOffset)
      (fun σ r => keepAlive c σ (.field r referentOffset)) (Writes c start)
      (Remains c start kind) (fun σ r => σ.words (.field r referentOffset) ∉ start.sources) where
  operations σ r := keepAlive_operations _ _
  each {σ r} inv late visible remains success := by
    have slot := isSlot_of_listed (inv.lists kind r remains.1)
    have applied := keepAlive_applied formed inv visible slot remains.2 success
    exact ⟨applied.steps, applied.settled⟩
  steps writes := writes
  before apart inv _ visible writes remains := remains.later formed apart inv visible writes
  after _ inv _ visible writes settled := steps_not_source formed inv writes visible settled

/-- Which of the two things the last walk does to a kind of reference. -/
def Treats (clearReferent : Bool) (kind : ReferenceType) : Prop :=
  clearReferent = true → kind = .soft ∨ kind = .weak

theorem processPhase3_settles {clearReferent : Bool} (treats : Treats clearReferent kind)
    (inv : Inv c start σ) (late : σ.discovering = false)
    (dead : ∀ r ∈ σ.discovered kind, Dead start σ (.field r referentOffset))
    (success : (processPhase3 c clearReferent kind σ).promotionFailed = false) :
    Steps c start (· ∈ referents σ kind) [] σ (processPhase3 c clearReferent kind σ) ∧
      ∀ r ∈ σ.discovered kind,
        (processPhase3 c clearReferent kind σ).words (.field r referentOffset) ∉ start.sources := by
  cases clearReferent with
  | true =>
    obtain ⟨steps, settled, -⟩ := (clear_walk formed (treats rfl)).fold formed
      (σ.discovered kind) (referents_nodup inv kind) inv late
      (fun r among => visible_of_listed (inv.lists kind r among))
      (fun r among => ⟨among, dead r among⟩) success
    exact ⟨steps, settled⟩
  | false =>
    exact (keep_walk formed kind).list formed inv late
      (fun r among => unscanned_of_dead formed (dead r among)) success

/-! ### One list -/

/-- A part of the processing that deals with the slots it touches leaves the collection at rest. -/
theorem resting_later (resting : Resting c start σ) (steps : Steps c start touch [] σ τ)
    (handled : ∀ obj offset, touch (.field obj offset) → Handled start τ (.field obj offset)) :
    Resting c start τ where
  inv := inv_steps formed resting.inv steps
  swept := by
    intro d k obj above below found offset slot
    rw [steps_savedMark (by simp) steps] at below
    have before := objects_before steps
      (Nat.lt_of_lt_of_le below (resting.inv.saved d).2) found
    have visible : Visible σ (.field obj offset) :=
      .inr (.inr ⟨d, mem_take_of_getElem? before below⟩)
    rw [steps_klass formed resting.inv steps visible] at slot
    by_cases touched : touch (.field obj offset)
    · exact handled obj offset touched
    · exact steps_handled formed resting.inv steps visible touched
        (resting.swept d k obj above below before offset slot)
  stack := (steps_control steps).1.trans resting.stack
  running := (steps_control steps).2.trans resting.running

/-- The same for a part that touches only the referents of a list. -/
theorem resting_referents (resting : Resting c start σ)
    (steps : Steps c start (· ∈ referents σ kind) [] σ τ)
    (handled : ∀ r ∈ σ.discovered kind, Handled start τ (.field r referentOffset)) :
    Resting c start τ := by
  refine resting_later formed resting steps ?_
  intro obj offset among
  obtain ⟨r, listed, same⟩ := mem_map.mp among
  rw [← same]
  exact handled r listed

/-- The referents of the list, and the slots of copies that are scanned on the way. -/
def Touches (σ : Scan) (kind : ReferenceType) (s : Slot) : Prop :=
  s ∈ referents σ kind ∨ ¬ Visible σ s

omit formed in
theorem touches_before (late : σ.discovering = false) (steps : Steps c start touch loops σ τ)
    (touches : Touches τ kind s) : Touches σ kind s := by
  rcases touches with among | hidden
  · exact .inl (referents_subset late steps among)
  · exact .inr fun visible => hidden (steps_visible steps visible)

/-- What the processing of a list leaves behind. -/
structure Processed (c : Scavenger) (start : YoungHeap) (kind : ReferenceType) (σ τ : Scan) :
    Prop where
  steps : Steps c start (Touches σ kind) [.advance] σ τ
  resting : Resting c start τ
  caughtUp : CaughtUp τ
  settled : ∀ r ∈ σ.discovered kind, τ.words (.field r referentOffset) ∉ start.sources

theorem phases_done {clearReferent : Bool} (treats : Treats clearReferent kind)
    (resting : Resting c start σ) (late : σ.discovering = false) (fresh : Fresh c start σ kind)
    (success : (evacuateFollowers c (processPhase3 c clearReferent kind
      (processPhase2 c kind σ))).promotionFailed = false) :
    Processed c start kind σ (evacuateFollowers c (processPhase3 c clearReferent kind
      (processPhase2 c kind σ))) := by
  have ends := succeeded_before (evacuateFollowers_operations _) success
  obtain ⟨first, sorted⟩ := (phase2_walk formed kind).list formed resting.inv late fresh
    (succeeded_before (processPhase3_operations _ _ _) ends)
  change Steps _ _ _ _ σ (processPhase2 c kind σ) at first
  change ∀ r ∈ _, Sorted _ _ _ (processPhase2 c kind σ) r at sorted
  generalize processPhase2 c kind σ = σ₁ at success ends first sorted ⊢
  have rest₁ := resting_referents formed resting first fun r listed => (sorted r listed).handled
  have late₁ := steps_late late first
  obtain ⟨second, settled⟩ := processPhase3_settles formed treats rest₁.inv late₁
    (fun r among => (sorted r (discovered_subset late first among)).left among) ends
  generalize processPhase3 c clearReferent kind σ₁ = σ₂ at success second settled ⊢
  have rest₂ := resting_referents formed rest₁ second fun r listed => .inl (settled r listed)
  obtain ⟨third, caughtUp⟩ := evacuateFollowers_done formed rest₂ success
  have both : Steps c start (Touches σ kind) [] σ σ₂ := by
    refine .trans (steps_more (fun s among => .inl among) (nil_subset _) first)
      (steps_more (fun s among => ?_) (nil_subset _) second)
    exact .inl (referents_subset late first among)
  refine ⟨.trans (steps_more (fun _ touched => touched) (nil_subset _) both)
    (steps_more (fun s hidden => ?_) (List.Subset.refl _) third.steps), third.resting, caughtUp, ?_⟩
  · exact .inr fun visible => hidden (steps_visible both visible)
  · intro r among
    have listed := resting.inv.lists kind r among
    have seen : Visible σ (.field r referentOffset) := visible_of_listed listed
    refine steps_not_source formed rest₂.inv third.steps (steps_visible both seen) ?_
    rcases (sorted r among).handled with upToDate | pending
    · exact steps_not_source formed rest₁.inv second (steps_visible first seen) upToDate
    · exact settled r (discovered_of_pending rest₁.inv
        (steps_listed formed resting.inv first listed) pending)

theorem processDiscoveredReflist_done (policy : Option (Nat → Bool)) {clearReferent : Bool}
    (treats : Treats clearReferent kind) (resting : Resting c start σ)
    (late : σ.discovering = false) (fresh : Fresh c start σ kind)
    (success : (processDiscoveredReflist c policy clearReferent kind σ).promotionFailed = false) :
    Processed c start kind σ (processDiscoveredReflist c policy clearReferent kind σ) := by
  cases policy with
  | none => exact phases_done formed treats resting late fresh success
  | some shouldClear =>
    unfold processDiscoveredReflist at success ⊢
    dsimp only at success ⊢
    have followed := succeeded_before (.trans (processPhase2_operations kind _)
      (.trans (processPhase3_operations clearReferent kind _)
        (evacuateFollowers_operations _))) success
    obtain ⟨first, sorted⟩ := (phase1_walk formed shouldClear kind).list formed resting.inv late
      fresh (succeeded_before (evacuateFollowers_operations _) followed)
    change Steps _ _ _ _ σ (processPhase1 c shouldClear kind σ) at first
    change ∀ r ∈ _, Sorted _ _ _ (processPhase1 c shouldClear kind σ) r at sorted
    generalize processPhase1 c shouldClear kind σ = σ₁ at success followed first sorted ⊢
    have rest₁ := resting_referents formed resting first
      fun r listed => (sorted r listed).handled
    obtain ⟨second, -⟩ := evacuateFollowers_done formed rest₁ followed
    generalize evacuateFollowers c σ₁ = σ₂ at success second ⊢
    have both : Steps c start (Touches σ kind) [.advance] σ σ₂ := by
      refine .trans (steps_more (fun s among => .inl among) (nil_subset _) first)
        (steps_more (fun s hidden => ?_) (List.Subset.refl _) second.steps)
      exact .inr fun visible => hidden (steps_visible first visible)
    have last := phases_done formed treats second.resting (steps_late late both)
      (second.fresh kind fun r among => (sorted r (discovered_subset late first among)).left among)
      success
    refine ⟨.trans both (steps_more (fun s => touches_before late both) (List.Subset.refl _)
      last.steps), last.resting, last.caughtUp, fun r among => ?_⟩
    have listed := resting.inv.lists kind r among
    have seen : Visible σ (.field r referentOffset) := visible_of_listed listed
    rcases (sorted r among).handled with upToDate | pending
    · refine steps_not_source formed second.resting.inv last.steps (steps_visible both seen) ?_
      exact steps_not_source formed rest₁.inv second.steps (steps_visible first seen) upToDate
    · have among₁ := discovered_of_pending rest₁.inv
        (steps_listed formed resting.inv first listed) pending
      -- the followers closure does not touch the reference, so it is still on the list
      exact last.settled r (steps_discovered second.steps
        (not_not_intro (steps_visible first seen)) among₁)

theorem Processed.fresh (resting : Resting c start σ) (late : σ.discovering = false)
    (processed : Processed c start kind σ τ) {kind' : ReferenceType} (apart : kind' ≠ kind)
    (fresh : Fresh c start σ kind') : Fresh c start τ kind' := by
  intro r among
  have earlier := discovered_subset late processed.steps among
  have listed := resting.inv.lists kind' r earlier
  have visible : Visible σ (.field r referentOffset) := visible_of_listed listed
  refine steps_unscanned formed resting.inv processed.steps visible ?_ (fresh r earlier)
  rintro (touched | hidden)
  · have own := (resting.inv.lists kind r (mem_referents.mp touched)).ofKind
    exact apart (Option.some.inj (listed.ofKind.symm.trans own))
  · exact hidden visible

theorem Processed.weakRoot {i : Nat} (resting : Resting c start σ)
    (processed : Processed c start kind σ τ) (unscanned : Unscanned c start σ (.weakRoot i)) :
    Unscanned c start τ (.weakRoot i) := by
  refine steps_unscanned (s := .weakRoot i) formed resting.inv processed.steps trivial ?_ unscanned
  rintro (touched | hidden)
  · obtain ⟨r, -, same⟩ := mem_map.mp touched
    cases same
  · exact hidden trivial

theorem Processed.settled_later (resting : Resting c start σ) (late : σ.discovering = false)
    (processed : Processed c start kind σ τ) (later : Steps c start touch loops τ υ) :
    ∀ r ∈ υ.discovered kind, υ.words (.field r referentOffset) ∉ start.sources := by
  intro r among
  have earlier := discovered_subset late processed.steps
    (discovered_subset (steps_late late processed.steps) later among)
  have visible : Visible σ (.field r referentOffset) :=
    visible_of_listed (resting.inv.lists kind r earlier)
  exact steps_not_source formed processed.resting.inv later
    (steps_visible processed.steps visible) (processed.settled r earlier)

/-! ### Weak handles -/

def weakOop (c : Scavenger) (σ : Scan) (s : Slot) : Scan :=
  if σ.words s = 0 then σ
  else if isAlive c σ (σ.words s) then keepAlive c σ s
  else σ.store s 0

theorem weakOop_walk :
    Walk c start Slot.weakRoot (fun σ i => weakOop c σ (.weakRoot i))
      (fun i => Steps c start (· = .weakRoot i) [])
      (fun σ i => Unscanned c start σ (.weakRoot i))
      (fun σ i => σ.words (.weakRoot i) ∉ start.sources) where
  operations σ i := by
    unfold weakOop
    split
    · exact .refl
    · split
      · exact keepAlive_operations _ _
      · exact .single (.store _ _)
  each {σ i} inv late visible unscanned success := by
    unfold weakOop at success ⊢
    split
    · rename_i null
      refine ⟨.refl, ?_⟩
      rw [null]
      exact zero_not_source formed
    · rename_i nonNull
      rw [if_neg nonNull] at success
      split
      · rename_i alive
        rw [if_pos alive] at success
        have applied := keepAlive_applied formed inv visible trivial unscanned success
        exact ⟨applied.steps, applied.settled⟩
      · rename_i gone
        refine ⟨.single (.clear rfl visible trivial late trivial
          (dead_of_not_alive unscanned gone)), ?_⟩
        have zero : (σ.store (.weakRoot i) 0).words (.weakRoot i) = 0 := update_self ..
        rw [zero]
        exact zero_not_source formed
  steps steps := steps
  before apart inv _ visible steps unscanned :=
    steps_unscanned formed inv steps visible apart unscanned
  after _ inv _ visible steps settled := steps_not_source formed inv steps visible settled

theorem weakOopsDo_done (inv : Inv c start σ) (late : σ.discovering = false)
    (unscanned : ∀ i < c.weakRootCount, Unscanned c start σ (.weakRoot i))
    (success : (weakOopsDo c σ).promotionFailed = false) :
    Steps c start (∃ i, · = .weakRoot i) [] σ (weakOopsDo c σ) ∧
      ∀ i < c.weakRootCount, (weakOopsDo c σ).words (.weakRoot i) ∉ start.sources := by
  have rounds : weakOopsDo c σ =
      (range c.weakRootCount).foldl (fun σ i => weakOop c σ (.weakRoot i)) σ :=
    foldl_map
  rw [rounds] at success ⊢
  obtain ⟨steps, settled, -⟩ := (weakOop_walk formed).fold formed (range c.weakRootCount)
    (nodup_range.map fun _ _ same => Slot.weakRoot.inj same) inv late
    (fun _ _ => trivial) (fun i among => unscanned i (mem_range.mp among)) success
  refine ⟨steps_more ?_ (nil_subset _) steps, fun i bound => settled i (mem_range.mpr bound)⟩
  intro s among
  obtain ⟨i, -, rfl⟩ := mem_map.mp among
  exact ⟨i, rfl⟩

/-! ### All lists -/

structure Finished (c : Scavenger) (start : YoungHeap) (σ τ : Scan) : Prop where
  steps : Steps c start (fun _ => True) [.advance, .stopDiscovery] σ τ
  resting : Resting c start τ
  caughtUp : CaughtUp τ
  listed : ∀ kind, ∀ r ∈ τ.discovered kind, τ.words (.field r referentOffset) ∉ start.sources
  handles : ∀ i < c.weakRootCount, τ.words (.weakRoot i) ∉ start.sources

theorem processDiscoveredReferences_done (resting : Resting c start σ)
    (fresh : ∀ kind, Fresh c start σ kind)
    (unscanned : ∀ i < c.weakRootCount, Unscanned c start σ (.weakRoot i))
    (success : (processDiscoveredReferences c σ).promotionFailed = false) :
    Finished c start σ (processDiscoveredReferences c σ) := by
  have stops : Step c start (fun _ => True) [.advance, .stopDiscovery] σ
      { σ with discovering := false } := .stopDiscovery (by simp)
  have rest₀ : Resting c start { σ with discovering := false } :=
    ⟨inv_step formed resting.inv stops, resting.swept, resting.stack, resting.running⟩
  have fresh₀ : ∀ kind, Fresh c start { σ with discovering := false } kind := fresh
  have handles₀ : ∀ i < c.weakRootCount,
      Unscanned c start { σ with discovering := false } (.weakRoot i) := unscanned
  have late₀ : { σ with discovering := false }.discovering = false := rfl
  unfold processDiscoveredReferences at success ⊢
  dsimp only at success ⊢
  generalize { σ with discovering := false } = σ₀ at success stops rest₀ fresh₀ handles₀ late₀ ⊢
  have ends := succeeded_before (evacuateFollowers_operations _) success
  have ends₄ := succeeded_before (weakOopsDo_operations _) ends
  have ends₃ := succeeded_before (processDiscoveredReflist_operations _ _ _ _) ends₄
  have ends₂ := succeeded_before (processDiscoveredReflist_operations _ _ _ _) ends₃
  have soft := processDiscoveredReflist_done formed (some c.clears) (fun _ => .inl rfl) rest₀ late₀
    (fresh₀ .soft) (succeeded_before (processDiscoveredReflist_operations _ _ _ _) ends₂)
  generalize
    processDiscoveredReflist c (some c.clears) true .soft σ₀ = σ₁ at success ends ends₄ ends₃ ends₂ soft ⊢
  have late₁ := steps_late late₀ soft.steps
  have weak := processDiscoveredReflist_done formed none (fun _ => .inr rfl) soft.resting late₁
    (soft.fresh formed rest₀ late₀ (by decide) (fresh₀ .weak)) ends₂
  generalize processDiscoveredReflist c none true .weak σ₁ = σ₂ at success ends ends₄ ends₃ weak ⊢
  have late₂ := steps_late late₁ weak.steps
  have keeps : ∀ kind, Treats false kind := fun _ never => nomatch never
  have final := processDiscoveredReflist_done formed none (keeps .final) weak.resting late₂
    (weak.fresh formed soft.resting late₁ (by decide)
      (soft.fresh formed rest₀ late₀ (by decide) (fresh₀ .final))) ends₃
  generalize processDiscoveredReflist c none false .final σ₂ = σ₃ at success ends ends₄ final ⊢
  have late₃ := steps_late late₂ final.steps
  have phantom := processDiscoveredReflist_done formed none (keeps .phantom) final.resting late₃
    (final.fresh formed weak.resting late₂ (by decide)
      (weak.fresh formed soft.resting late₁ (by decide)
        (soft.fresh formed rest₀ late₀ (by decide) (fresh₀ .phantom)))) ends₄
  generalize processDiscoveredReflist c none false .phantom σ₃ = σ₄ at success ends phantom ⊢
  -- the weak handles, and what they still copy
  obtain ⟨handles, settled⟩ := weakOopsDo_done formed phantom.resting.inv
    (steps_late late₃ phantom.steps)
    (fun i bound => phantom.weakRoot formed final.resting
      (final.weakRoot formed weak.resting
        (weak.weakRoot formed soft.resting (soft.weakRoot formed rest₀ (handles₀ i bound)))))
    ends
  generalize weakOopsDo c σ₄ = σ₅ at success handles settled ⊢
  have rest₅ := resting_later formed phantom.resting handles (by
    rintro obj offset ⟨i, same⟩
    cases same)
  obtain ⟨last, caughtUp⟩ := evacuateFollowers_done formed rest₅ success
  generalize evacuateFollowers c σ₅ = τ at last caughtUp ⊢
  have wide : ∀ {touch : Slot → Prop} {loops : List LoopStep} {υ ω : Scan},
      loops ⊆ [.advance, .stopDiscovery] → Steps c start touch loops υ ω →
        Steps c start (fun _ => True) [.advance, .stopDiscovery] υ ω :=
    fun subset steps => steps_more (fun _ _ => trivial) subset steps
  have after₄ := (wide (by simp) handles).trans (wide (by simp) last.steps)
  have after₃ := (wide (by simp) phantom.steps).trans after₄
  have after₂ := (wide (by simp) final.steps).trans after₃
  have after₁ := (wide (by simp) weak.steps).trans after₂
  refine ⟨.head stops (.trans (wide (by simp) soft.steps) after₁),
    last.resting, caughtUp, fun kind => ?_, fun i bound => ?_⟩
  · cases kind with
    | other => exact fun r among => absurd rfl (last.resting.inv.lists .other r among).typed
    | soft => exact soft.settled_later formed rest₀ late₀ after₁
    | weak => exact weak.settled_later formed soft.resting late₁ after₂
    | final => exact final.settled_later formed weak.resting late₂ after₃
    | phantom => exact phantom.settled_later formed final.resting late₃ after₄
  · exact steps_not_source (s := .weakRoot i) formed rest₅.inv last.steps trivial (settled i bound)

end ScavengeReferences
