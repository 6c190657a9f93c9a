import TransGC.ScanPhases

/-!
# Processing the discovered references

Each list of discovered references is walked twice. The first walk takes off the references whose
referent was reached and brings the referent up to date. The second clears the referents that are
left, or, for final and phantom references, keeps them alive. At the end no referent on any list
points to an object that has moved or is about to go.
-/
namespace ScanReferences
open EdenTable MarkWord ObjectHeap EdenScan ScanSteps ScanInvariant ScanClosures ScanDrain ScanPhases Function Option
open List

variable {c : Collector} {start : Heap} {Good : Nat → Prop} {loops : List LoopStep}
  {kind : ReferenceType} {σ τ υ : Scan} {r : Nat} {s : Slot}

/-- The referent is null, or an object of the eden that was not reached. -/
def Dead (c : Collector) (σ : Scan) (r : Nat) : Prop :=
  σ.words (.field r referentOffset) = 0 ∨
    c.inEden (σ.words (.field r referentOffset)) = true ∧
      σ.isForwarded (σ.words (.field r referentOffset)) = false

theorem dead_of_not_alive (gone : ¬ isAlive c σ (σ.words (.field r referentOffset)) = true) :
    Dead c σ r := by
  right
  simpa [isAlive] using gone

/-! ### Discovered lists -/

theorem steps_late (late : σ.discovering = false) (steps : Steps c start Good loops σ τ) :
    τ.discovering = false := by
  induction steps with
  | refl => exact late
  | tail _ step ih =>
    cases step with
    | stopDiscovery allowed => rfl
    | _ => exact ih

/-- Once discovery is off, references only leave the lists. -/
theorem discovered_subset (late : σ.discovering = false) (steps : Steps c start Good loops σ τ)
    (among : r ∈ τ.discovered kind) : r ∈ σ.discovered kind := by
  induction steps with
  | refl => exact among
  | tail before step ih =>
    apply ih
    cases step with
    | discover early listed =>
      rw [steps_late late before] at early
      cases early
    | remove settled => exact (mem_removeDiscovered.mp among).1
    | _ => exact among

theorem steps_listed (setup : Setup c start Good) (inv : Inv c start Good σ)
    (steps : Steps c start Good loops σ τ) (listed : Listed c start Good σ.toHeap kind r) :
    Listed c start Good τ.toHeap kind r :=
  steps_keep (P := fun υ => Listed c start Good υ.toHeap kind r) setup inv steps
    (fun inv step listed => listed_step setup step inv listed) listed

/-- A listed reference stays on its list until its referent is settled. -/
theorem settled_or_listed (setup : Setup c start Good) (inv : Inv c start Good σ)
    (steps : Steps c start Good loops σ τ) (among : r ∈ σ.discovered kind) :
    Settled c τ.toHeap (τ.words (.field r referentOffset)) ∨ r ∈ τ.discovered kind := by
  have listed := inv.lists kind r among
  rcases steps_handled setup inv steps listed.visible (.inr ⟨kind, r, rfl, among⟩) with
    settled | ⟨kind', r', same, among'⟩
  · exact .inl settled
  · cases same
    have own := (steps_listed setup inv steps listed).ofKind
    have other := ((inv.steps setup steps).lists kind' r among').ofKind
    cases some.inj (other.symm.trans own)
    exact .inr among'

/-- Only weak references, and soft ones that the policy gives up, are cleared. -/
theorem Listed.clearable (formed : WellFormed c start) (inv : Inv c start Good σ)
    (listed : Listed c start Good σ.toHeap kind r) (weak : kind = .soft ∨ kind = .weak) :
    Clearable c start (.field r referentOffset) := by
  obtain ⟨moved, valid⟩ := inv.valid
  have low := gen1_lt_top formed listed.region
  have ofKind : (start.klass r).reference = some kind := by
    rw [← valid.klass r (.inl low)]
    exact listed.ofKind
  refine ⟨rfl, listed.region, ?_, ?_⟩
  · rcases valid.words (.field r nextOffset) (.inl low) with (same | ⟨among, marked, same⟩) | ⟨⟨offset, -⟩, -⟩
    · exact same.symm.trans listed.active
    · exact absurd (same.symm.trans listed.active) (valid.forwardee_ne_zero formed among marked)
    · cases offset
  · rcases weak with rfl | rfl
    · exact .inr ⟨ofKind, listed.policy rfl⟩
    · exact .inl ofKind

theorem Listed.goodSlot (inv : Inv c start Good σ) (formed : WellFormed c start)
    (listed : Listed c start Good σ.toHeap kind r) (strong : kind = .final ∨ kind = .phantom) :
    GoodSlot c Good σ.toHeap (.field r referentOffset) := by
  rcases listed.held with good | ⟨-, -, -, weak⟩
  · exact good
  · obtain ⟨moved, valid⟩ := inv.valid
    rw [← valid.klass r (.inl (gen1_lt_top formed listed.region)), listed.ofKind] at weak
    rcases strong with rfl | rfl <;> rcases weak with other | ⟨other, -⟩ <;> cases other

/-! ### Keeping a referent that was reached -/

theorem goodSlot_of_alive (inv : Inv c start Good σ)
    (inside : GoodSlot c (· ∈ start.edenObjects c.id) σ.toHeap s)
    (alive : isAlive c σ (σ.words s) = true) : GoodSlot c Good σ.toHeap s := by
  intro target
  have marked : σ.isForwarded (σ.words s) = true := by simpa [isAlive, target] using alive
  exact goodSlot_of_forwarded inv inside marked target

/-- A referent that was reached has its forwarding pointer, so nothing is copied for it. -/
theorem keepAlive_of_alive (alive : isAlive c σ (σ.words s) = true) :
    let τ := if c.inEden (σ.words s) then σ.store s (c.forwardee σ.toHeap (σ.words s)) else σ
    keepAlive c σ s = { τ with cards := keepAliveCard c τ.toHeap s } := by
  unfold keepAlive redirect
  split
  · rename_i inside
    have marked : σ.isForwarded (σ.words s) = true := by simpa [isAlive, inside] using alive
    rw [if_pos marked]
  · rfl

theorem keepAlive_removeDiscovered (alive : isAlive c σ (σ.words s) = true) :
    keepAlive c (σ.removeDiscovered kind r) s = (keepAlive c σ s).removeDiscovered kind r := by
  have alive' : isAlive c (σ.removeDiscovered kind r)
      ((σ.removeDiscovered kind r).words s) = true := alive
  have words : (σ.removeDiscovered kind r).words = σ.words := rfl
  rw [keepAlive_of_alive alive, keepAlive_of_alive alive', words]
  cases c.inEden (σ.words s) <;> rfl

/-! ### Walks over a list -/

/-- No object is forwarded, and no slot is written but the referent of `r`. -/
structure Gentle (c : Collector) (start : Heap) (Good : Nat → Prop) (r : Nat) (σ τ : Scan) :
    Prop where
  steps : Steps c start Good [.pop] σ τ
  quiet : Quiet c start τ
  mark : τ.mark = σ.mark
  words : ∀ other, other ≠ r →
    τ.words (.field other referentOffset) = σ.words (.field other referentOffset)

theorem Gentle.dead {other : Nat} (gentle : Gentle c start Good r σ τ) (apart : other ≠ r)
    (dead : Dead c σ other) : Dead c τ other := by
  unfold Dead Memory.isForwarded at dead ⊢
  rw [gentle.words other apart, gentle.mark]
  exact dead

variable (setup : Setup c start Good)
include setup

/-- A walk whose rounds turn `Q` into `P`, both of which the rounds for other references
keep. -/
theorem walk_gentle {round : Scan → Nat → Scan} {P Q : Scan → Nat → Prop} (references : List Nat)
    (each : ∀ {σ r}, Inv c start Good σ → Quiet c start σ → σ.discovering = false →
      Listed c start Good σ.toHeap kind r → Q σ r →
      Gentle c start Good r σ (round σ r) ∧ P (round σ r) r)
    (before : ∀ {σ τ r other}, other ≠ r → Gentle c start Good r σ τ → Q σ other → Q τ other)
    (after : ∀ {σ τ r other}, other ≠ r → Inv c start Good σ → σ.discovering = false →
      Listed c start Good σ.toHeap kind other → Gentle c start Good r σ τ → P σ other → P τ other)
    (again : ∀ {σ r}, P σ r → Q σ r) (inv : Inv c start Good σ) (quiet : Quiet c start σ)
    (late : σ.discovering = false)
    (listed : ∀ r ∈ references, Listed c start Good σ.toHeap kind r)
    (due : ∀ r ∈ references, Q σ r) :
    Steps c start Good [.pop] σ (references.foldl round σ) ∧
      Quiet c start (references.foldl round σ) ∧
      ∀ r ∈ references, P (references.foldl round σ) r := by
  -- the references already dealt with are carried along in `finished`
  suffices ∀ finished : List Nat, (∀ r ∈ finished, Listed c start Good σ.toHeap kind r) →
      (∀ r ∈ finished, P σ r) → Steps c start Good [.pop] σ (references.foldl round σ) ∧
        Quiet c start (references.foldl round σ) ∧
        ∀ r ∈ finished ++ references, P (references.foldl round σ) r by
    simpa using this [] (by simp) (by simp)
  induction references generalizing σ with
  | nil =>
    intro finished _ holds
    exact ⟨.refl, quiet, by simpa using holds⟩
  | cons r references ih =>
    intro finished known holds
    have own := listed r mem_cons_self
    obtain ⟨gentle, done⟩ := each inv quiet late own (due r mem_cons_self)
    have carried : ∀ other, Listed c start Good σ.toHeap kind other →
        Listed c start Good (round σ r).toHeap kind other :=
      fun other => steps_listed setup inv gentle.steps
    obtain ⟨steps, quiet, result⟩ := ih (inv.steps setup gentle.steps) gentle.quiet
      (steps_late late gentle.steps)
      (fun other among => carried other (listed other (mem_cons_of_mem r among)))
      (fun other among => by
        by_cases same : other = r
        · subst same
          exact again done
        · exact before same gentle (due other (mem_cons_of_mem r among)))
      (finished ++ [r])
      (fun other among => by
        rcases mem_append.mp among with earlier | last
        · exact carried other (known other earlier)
        · cases mem_singleton.mp last
          exact carried r own)
      (fun other among => by
        by_cases same : other = r
        · subst same
          exact done
        · rcases mem_append.mp among with earlier | last
          · exact after same inv late (known other earlier) gentle (holds other earlier)
          · exact absurd (mem_singleton.mp last) same)
    refine ⟨.trans gentle.steps steps, quiet, fun other among => result other ?_⟩
    simpa using among

/-- The first walk leaves a reference on the list only if its referent was not reached. -/
def Sorted (c : Collector) (kind : ReferenceType) (σ : Scan) (r : Nat) : Prop :=
  r ∈ σ.discovered kind → Dead c σ r

theorem phase2_round (inv : Inv c start Good σ) (quiet : Quiet c start σ)
    (listed : Listed c start Good σ.toHeap kind r)
    (alive : isAlive c σ (σ.words (.field r referentOffset)) = true) :
    Gentle c start Good r σ (keepAlive c (σ.removeDiscovered kind r) (.field r referentOffset)) ∧
      Sorted c kind (keepAlive c (σ.removeDiscovered kind r) (.field r referentOffset)) r := by
  rw [keepAlive_removeDiscovered alive]
  have applied := keepAlive_applied setup inv quiet listed.visible
    (isSlot_referent listed.ofKind) (goodSlot_of_alive inv listed.inside alive)
  have removes : Step c start Good [.pop] (keepAlive c σ (.field r referentOffset))
      ((keepAlive c σ (.field r referentOffset)).removeDiscovered kind r) :=
    .remove applied.settled
  have kept := inv.steps setup applied.steps
  refine ⟨⟨.trans applied.steps (.single removes), ?_, ?_, fun other apart => ?_⟩,
    fun among => absurd ⟨rfl, rfl⟩ (mem_removeDiscovered.mp among).2⟩
  · exact (drained setup).keeps kept applied.between (.single (.remove applied.settled)) rfl
  · change (keepAlive c σ (.field r referentOffset)).mark = σ.mark
    rw [keepAlive_of_alive alive]
    split <;> rfl
  · change (keepAlive c σ (.field r referentOffset)).words _ = _
    rw [keepAlive_of_alive alive]
    split
    · exact update_of_ne (fun same => apart (Slot.field.inj same).1) ..
    · rfl

theorem processPhase2_sorted (kind : ReferenceType)
    (inv : Inv c start Good σ) (quiet : Quiet c start σ) (late : σ.discovering = false) :
    Steps c start Good [.pop] σ (processPhase2 c kind σ) ∧
      Quiet c start (processPhase2 c kind σ) ∧
      ∀ r ∈ σ.discovered kind, Sorted c kind (processPhase2 c kind σ) r := by
  refine walk_gentle (Q := fun _ _ => True) setup (σ.discovered kind) ?_
    (fun _ _ _ => trivial)
    (fun apart _ late _ gentle sorted among =>
      gentle.dead apart (sorted (discovered_subset late gentle.steps among)))
    (fun _ => trivial) inv quiet late (fun r among => inv.lists kind r among)
    (fun _ _ => trivial)
  intro σ r inv quiet late listed _
  split
  · rename_i alive
    exact phase2_round setup inv quiet listed alive
  · rename_i gone
    exact ⟨⟨.refl, quiet, rfl, fun _ _ => rfl⟩, fun _ => dead_of_not_alive gone⟩

/-! ### The second walk -/

theorem clear_referents (weak : kind = .soft ∨ kind = .weak) (inv : Inv c start Good σ)
    (quiet : Quiet c start σ) (late : σ.discovering = false)
    (dead : ∀ r ∈ σ.discovered kind, Dead c σ r) :
    Steps c start Good [.pop] σ (processPhase3 c true kind σ) ∧
      Quiet c start (processPhase3 c true kind σ) ∧
      ∀ r ∈ σ.discovered kind, (processPhase3 c true kind σ).words (.field r referentOffset) = 0 := by
  refine walk_gentle (Q := Dead c) (P := fun υ r => υ.words (.field r referentOffset) = 0) setup
    (σ.discovered kind) ?_ (fun apart gentle dead => gentle.dead apart dead)
    (fun apart _ _ _ gentle zero => (gentle.words _ apart).trans zero) .inl inv quiet late
    (fun r among => inv.lists kind r among) dead
  intro σ r inv quiet late listed dead
  have step : Step c start Good [] σ (σ.store (.field r referentOffset) 0) :=
    .clear listed.visible (isSlot_referent listed.ofKind) late
      (Listed.clearable setup.formed inv listed weak) dead
  refine ⟨⟨steps_more (nil_subset _) (.single step), ?_, rfl, fun other apart => ?_⟩,
    update_self ..⟩
  · exact (drained setup).keeps inv quiet (.single step) rfl
  · exact update_of_ne (fun same => apart (Slot.field.inj same).1) ..

theorem keepAlive_scans :
    Scans c start Good [.pop] (Quiet c start) (fun _ => True) (keepAlive c) where
  steady := by simp
  steps inv quiet visible slot good :=
    (keepAlive_applied setup inv quiet visible slot (good trivial)).steps
  keeps inv quiet visible slot good :=
    (keepAlive_applied setup inv quiet visible slot (good trivial)).between
  settles inv quiet visible slot good _ :=
    (keepAlive_applied setup inv quiet visible slot good).settled
  discovers inv quiet early listed :=
    (drained setup).keeps inv quiet (.single (.discover early listed)) rfl

theorem keep_referents (strong : kind = .final ∨ kind = .phantom) (inv : Inv c start Good σ)
    (quiet : Quiet c start σ) :
    Steps c start Good [.pop] σ (processPhase3 c false kind σ) ∧
      Quiet c start (processPhase3 c false kind σ) ∧
      ∀ r ∈ σ.discovered kind, Settled c (processPhase3 c false kind σ).toHeap
        ((processPhase3 c false kind σ).words (.field r referentOffset)) := by
  have slots : processPhase3 c false kind σ =
      ((σ.discovered kind).map fun r => Slot.field r referentOffset).foldl (keepAlive c) σ := by
    rw [foldl_map]
    rfl
  rw [slots]
  obtain ⟨steps, quiet, settled⟩ := (keepAlive_scans setup).fold setup
    ((σ.discovered kind).map fun r => Slot.field r referentOffset) inv quiet
    (by
      intro s among
      obtain ⟨r, listed, rfl⟩ := mem_map.mp among
      exact (inv.lists kind r listed).visible)
    (by
      intro s among
      obtain ⟨r, listed, rfl⟩ := mem_map.mp among
      exact isSlot_referent (inv.lists kind r listed).ofKind)
    (by
      intro s among _
      obtain ⟨r, listed, rfl⟩ := mem_map.mp among
      exact Listed.goodSlot inv setup.formed (inv.lists kind r listed) strong)
  exact ⟨steps, quiet, fun r among => settled _ (mem_map_of_mem among) trivial⟩

/-- Which of the two things the second walk does to a kind of reference. -/
def Treats (clearReferent : Bool) (kind : ReferenceType) : Prop :=
  if clearReferent then kind = .soft ∨ kind = .weak else kind = .final ∨ kind = .phantom

theorem processPhase3_settles {clearReferent : Bool} (treats : Treats clearReferent kind)
    (inv : Inv c start Good σ) (quiet : Quiet c start σ) (late : σ.discovering = false)
    (dead : ∀ r ∈ σ.discovered kind, Dead c σ r) :
    Steps c start Good [.pop] σ (processPhase3 c clearReferent kind σ) ∧
      Quiet c start (processPhase3 c clearReferent kind σ) ∧
      ∀ r ∈ σ.discovered kind, Settled c (processPhase3 c clearReferent kind σ).toHeap
        ((processPhase3 c clearReferent kind σ).words (.field r referentOffset)) := by
  cases clearReferent with
  | false => exact keep_referents setup treats inv quiet
  | true =>
    obtain ⟨steps, quiet, cleared⟩ := clear_referents setup treats inv quiet late dead
    exact ⟨steps, quiet, fun r among => settled_zero setup.formed (cleared r among)⟩

/-! ### One list -/

theorem Resting.later (resting : Resting c start Good σ) (steps : Steps c start Good [.pop] σ τ)
    (quiet : Quiet c start τ) : Resting c start Good τ where
  inv := resting.inv.steps setup steps
  quiet := quiet
  swept := swept_steps setup (by simp) resting.inv steps resting.swept

/-- A part of the reference processing that settles the referents of one list. -/
structure Processed (c : Collector) (start : Heap) (Good : Nat → Prop) (kind : ReferenceType)
    (σ τ : Scan) : Prop where
  steps : Steps c start Good [.pop, .advance] σ τ
  resting : Resting c start Good τ
  caughtUp : τ.savedMark = τ.old.length
  settled : ∀ r ∈ σ.discovered kind, Settled c τ.toHeap (τ.words (.field r referentOffset))

theorem processPhases_done {clearReferent : Bool} (treats : Treats clearReferent kind)
    (resting : Resting c start Good σ) (late : σ.discovering = false) :
    ∃ τ, evacuateFollowers c (processPhase3 c clearReferent kind (processPhase2 c kind σ)) = some τ ∧
      Processed c start Good kind σ τ := by
  obtain ⟨first, quiet, sorted⟩ := processPhase2_sorted setup kind resting.inv resting.quiet late
  have rest := Resting.later setup resting first quiet
  have late' := steps_late late first
  -- what is still on the list after the first walk was not reached
  have dead : ∀ r ∈ (processPhase2 c kind σ).discovered kind, Dead c (processPhase2 c kind σ) r := by
    intro r among
    exact sorted r (discovered_subset late first among) among
  generalize processPhase2 c kind σ = υ at first quiet sorted rest late' dead ⊢
  obtain ⟨second, quiet', settled⟩ := processPhase3_settles setup treats rest.inv quiet
    late' dead
  have rest' := Resting.later setup rest second quiet'
  generalize processPhase3 c clearReferent kind υ = ω at second quiet' settled rest' ⊢
  obtain ⟨τ, ends, third, done, caughtUp⟩ := evacuateFollowers_ends setup rest'
  have begun : Steps c start Good [.pop] σ ω := .trans first second
  refine ⟨τ, ends, .trans (steps_more (by simp) begun) third, done, caughtUp, ?_⟩
  intro r among
  have listed := resting.inv.lists kind r among
  have seen : ∀ {υ}, Steps c start Good [.pop] σ υ →
      Visible c start υ.toHeap (.field r referentOffset) :=
    fun steps => steps_visible setup resting.inv steps listed.visible
  refine steps_settled setup rest'.inv third (seen begun) ?_
  rcases settled_or_listed setup resting.inv first among with upToDate | remains
  · exact steps_settled setup rest.inv second (seen first) upToDate
  · exact settled r remains

omit setup in
/-- Phase 1 keeps what the policy does not give up; here it gives up every referent. -/
theorem processPhase1_of_all (σ : Scan) : processPhase1 c (fun _ => true) kind σ = σ := by
  simp [processPhase1]

theorem processDiscoveredReflist_done (policy : Option (Nat → Bool)) (clearReferent : Bool)
    (kind : ReferenceType) (treats : Treats clearReferent kind)
    (clears : ∀ shouldClear ∈ policy, shouldClear = fun _ => true)
    (resting : Resting c start Good σ) (late : σ.discovering = false) :
    ∃ τ, processDiscoveredReflist c policy clearReferent kind σ = some τ ∧
      Processed c start Good kind σ τ := by
  cases policy with
  | none => exact processPhases_done setup treats resting late
  | some shouldClear =>
    obtain rfl := clears shouldClear rfl
    unfold processDiscoveredReflist
    dsimp only
    rw [processPhase1_of_all]
    obtain ⟨υ, ends, first, rest, -⟩ := evacuateFollowers_ends setup resting
    obtain ⟨τ, finished, done⟩ := processPhases_done setup treats rest (steps_late late first)
    rw [ends, bind_some]
    refine ⟨τ, finished, .trans first done.steps, done.resting, done.caughtUp, fun r among => ?_⟩
    rcases settled_or_listed setup resting.inv first among with upToDate | remains
    · have listed := resting.inv.lists kind r among
      exact steps_settled setup rest.inv done.steps
        (steps_visible setup resting.inv first listed.visible) upToDate
    · exact done.settled r remains

/-! ### Weak handles -/

/-- One handle of `JNIHandles::weak_oops_do`. -/
def weakOop (c : Collector) (σ : Scan) (s : Slot) : Scan :=
  if σ.words s = 0 then σ
  else if isAlive c σ (σ.words s) then keepAlive c σ s
  else σ.store s 0

section Handles

variable (inv : Inv c start Good σ) (quiet : Quiet c start σ) (late : σ.discovering = false)
include inv quiet late

theorem weakOop_applied {i : Nat}
    (inside : GoodSlot c (· ∈ start.edenObjects c.id) σ.toHeap (.weakRoot i)) :
    Applied c start Good [.pop] (Quiet c start) σ (weakOop c σ (.weakRoot i)) (.weakRoot i) := by
  unfold weakOop
  split
  · rename_i zero
    exact ⟨.refl, quiet, settled_zero setup.formed zero⟩
  · split
    · rename_i alive
      exact keepAlive_applied setup inv quiet trivial trivial
        (goodSlot_of_alive inv inside alive)
    · rename_i gone
      have step : Step c start Good [] σ (σ.store (.weakRoot i) 0) :=
        .clear trivial trivial late trivial (.inr (by simpa [isAlive] using gone))
      refine ⟨steps_more (nil_subset _) (.single step),
        (drained setup).keeps inv quiet (.single step) rfl, ?_⟩
      exact settled_zero setup.formed (update_self ..)

theorem weakOops_fold (handles : List Nat)
    (inside : ∀ i ∈ handles, GoodSlot c (· ∈ start.edenObjects c.id) σ.toHeap (.weakRoot i)) :
    Steps c start Good [.pop] σ ((handles.map Slot.weakRoot).foldl (weakOop c) σ) ∧
      Quiet c start ((handles.map Slot.weakRoot).foldl (weakOop c) σ) ∧
      ∀ i ∈ handles, Settled c ((handles.map Slot.weakRoot).foldl (weakOop c) σ).toHeap
        (((handles.map Slot.weakRoot).foldl (weakOop c) σ).words (.weakRoot i)) := by
  induction handles generalizing σ with
  | nil => exact ⟨.refl, quiet, by simp⟩
  | cons i handles ih =>
    have applied := weakOop_applied setup inv quiet late (inside i mem_cons_self)
    have after := inv.steps setup applied.steps
    obtain ⟨steps, quiet, settled⟩ := ih after applied.between (steps_late late applied.steps)
      (fun j among => steps_goodSlot (s := .weakRoot j) setup inv applied.steps trivial
        (inside j (mem_cons_of_mem i among)))
    refine ⟨.trans applied.steps steps, quiet, fun j among => ?_⟩
    rcases mem_cons.mp among with rfl | later
    · exact steps_settled (s := .weakRoot j) setup after steps trivial applied.settled
    · exact settled j later

theorem weakOopsDo_done
    (inside : ∀ i < c.weakRootCount, GoodSlot c (· ∈ start.edenObjects c.id) σ.toHeap (.weakRoot i)) :
    Steps c start Good [.pop] σ (weakOopsDo c σ) ∧ Quiet c start (weakOopsDo c σ) ∧
      ∀ i < c.weakRootCount, Settled c (weakOopsDo c σ).toHeap
        ((weakOopsDo c σ).words (.weakRoot i)) := by
  obtain ⟨steps, quiet, settled⟩ := weakOops_fold setup inv quiet late (range c.weakRootCount)
    (fun i among => inside i (mem_range.mp among))
  exact ⟨steps, quiet, fun i bound => settled i (mem_range.mpr bound)⟩

end Handles

/-! ### All lists -/

/-- What the processing of the references leaves behind. -/
structure Finished (c : Collector) (start : Heap) (Good : Nat → Prop) (σ τ : Scan) : Prop where
  steps : Steps c start Good [.pop, .advance] σ τ
  resting : Resting c start Good τ
  caughtUp : τ.savedMark = τ.old.length
  listed : ∀ kind, ∀ r ∈ τ.discovered kind, Settled c τ.toHeap (τ.words (.field r referentOffset))
  handles : ∀ i < c.weakRootCount, Settled c τ.toHeap (τ.words (.weakRoot i))

theorem Processed.settled_later (resting : Resting c start Good σ) (late : σ.discovering = false)
    (done : Processed c start Good kind σ τ) (later : Steps c start Good loops τ υ) :
    ∀ r ∈ υ.discovered kind, Settled c υ.toHeap (υ.words (.field r referentOffset)) := by
  intro r among
  have early := discovered_subset late done.steps
    (discovered_subset (steps_late late done.steps) later among)
  have visible := (resting.inv.lists kind r early).visible
  exact steps_settled setup done.resting.inv later
    (steps_visible setup resting.inv done.steps visible) (done.settled r early)

theorem processLists_done (resting : Resting c start Good σ) (late : σ.discovering = false)
    (inside : ∀ i < c.weakRootCount, GoodSlot c (· ∈ start.edenObjects c.id) σ.toHeap (.weakRoot i)) :
    ∃ τ, ((processDiscoveredReflist c (some fun _ => true) true .soft σ).bind fun σ =>
      (processDiscoveredReflist c none true .weak σ).bind fun σ =>
      (processDiscoveredReflist c none false .final σ).bind fun σ =>
      (processDiscoveredReflist c none false .phantom σ).bind fun σ =>
      evacuateFollowers c (weakOopsDo c σ)) = some τ ∧ Finished c start Good σ τ := by
  obtain ⟨σ₁, ends₁, soft⟩ := processDiscoveredReflist_done setup (some fun _ => true) true
    .soft (.inl rfl) (fun _ given => (some.inj given).symm) resting late
  have late₁ := steps_late late soft.steps
  obtain ⟨σ₂, ends₂, weak⟩ := processDiscoveredReflist_done setup none true .weak (.inr rfl)
    nofun soft.resting late₁
  have late₂ := steps_late late₁ weak.steps
  obtain ⟨σ₃, ends₃, final⟩ := processDiscoveredReflist_done setup none false .final
    (.inl rfl) nofun weak.resting late₂
  have late₃ := steps_late late₂ final.steps
  obtain ⟨σ₄, ends₄, phantom⟩ := processDiscoveredReflist_done setup none false .phantom
    (.inr rfl) nofun final.resting late₃
  have late₄ := steps_late late₃ phantom.steps
  have lists₂ := soft.steps.trans weak.steps
  have lists₃ := lists₂.trans final.steps
  have lists₄ := lists₃.trans phantom.steps
  -- the weak handles, and what they still promote
  obtain ⟨handles, quiet, settled⟩ := weakOopsDo_done setup phantom.resting.inv
    phantom.resting.quiet late₄ (fun i bound => steps_goodSlot (s := .weakRoot i) setup
      resting.inv lists₄ trivial (inside i bound))
  have rest := Resting.later setup phantom.resting handles quiet
  obtain ⟨τ, ends, last, done, caughtUp⟩ := evacuateFollowers_ends setup rest
  have after₄ := (steps_more (by simp) handles).trans last
  have after₃ := phantom.steps.trans after₄
  have after₂ := final.steps.trans after₃
  have after₁ := weak.steps.trans after₂
  refine ⟨τ, ?_, .trans lists₄ after₄, done, caughtUp, fun kind r among => ?_, fun i bound => ?_⟩
  · rw [ends₁, bind_some, ends₂, bind_some, ends₃, bind_some, ends₄,
      bind_some]
    exact ends
  · cases kind with
    | other => exact absurd rfl (done.inv.lists .other r among).typed
    | soft => exact soft.settled_later setup resting late after₁ r among
    | weak => exact weak.settled_later setup soft.resting late₁ after₂ r among
    | final => exact final.settled_later setup weak.resting late₂ after₃ r among
    | phantom => exact phantom.settled_later setup final.resting late₃ after₄ r among
  · exact steps_settled (s := .weakRoot i) setup rest.inv last trivial (settled i bound)

theorem processDiscoveredReferences_done (resting : Resting c start Good σ)
    (inside : ∀ i < c.weakRootCount, GoodSlot c (· ∈ start.edenObjects c.id) σ.toHeap (.weakRoot i)) :
    ∃ τ, processDiscoveredReferences c σ = some τ ∧
      Finished c start Good { σ with discovering := false } τ := by
  have stops : Step c start Good [.stopDiscovery] σ { σ with discovering := false } :=
    .stopDiscovery (by simp)
  have rest : Resting c start Good { σ with discovering := false } :=
    ⟨resting.inv.step setup stops, ⟨resting.quiet.stack, resting.quiet.covered⟩, resting.swept⟩
  exact processLists_done setup rest rfl inside

end ScanReferences
