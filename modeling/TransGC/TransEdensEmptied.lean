import TransGC.MarkCompact

/-!
# The full mark-compact empties the transaction edens

The compact point starts in Tenured and only ever moves on to DefNew. So the compaction top of a
transaction eden is written once, by the scan of the eden itself, which sets it to the bottom; and
that is what the second pass makes the new top.
-/
namespace TransEdensEmptied
open CompactSpaces MarkWord OrderedMoves ForwardPlan ForwardScan ForwardFits CompactionMoves
  CompactionSafety MarkCompact Function

variable {heap : Heap} {store store' : Store} {space space' eden this : SpaceRef}

/-! ### The compaction tops of TransNew -/

/-- The two stores have the same compaction tops in TransNew. -/
def SameTransTops (store store' : Store) : Prop :=
  ∀ eden : SpaceRef, eden.gen = .transNew → store'.compactionTop eden = store.compactionTop eden

theorem SameTransTops.trans {store'' : Store} (first : SameTransTops store store')
    (second : SameTransTops store' store'') : SameTransTops store store'' :=
  fun eden trans => (second eden trans).trans (first eden trans)

theorem setCompactionTop_sameTransTops (outside : space.gen ≠ .transNew) (a : Nat) :
    SameTransTops store (store.setCompactionTop space a) := by
  intro eden trans
  apply update_of_ne
  rintro rfl
  exact outside trans

theorem setEndIfAny_compactionTop (liveRange : Option Nat) (stop : Nat) :
    (setEndIfAny store liveRange stop).compactionTop = store.compactionTop := by
  cases liveRange with
  | none => rfl
  | some range => rfl

theorem switchSpace_gen (outside : space.gen ≠ .transNew)
    (switches : switchSpace heap space = some space') : space'.gen ≠ .transNew := by
  obtain ⟨gen, index⟩ := space
  unfold switchSpace Heap.nextCompactionSpace at switches
  split at switches
  · rename_i next found
    split at found
    · cases found
      cases switches
      exact outside
    · cases found
  · cases gen with
    | transNew => exact absurd rfl outside
    | tenured =>
      cases switches
      decide
    | defNew => cases switches

/-- The compact point is outside TransNew still, and TransNew's tops are untouched. -/
structure KeepsTransTops (store store' : Store) (space' : SpaceRef) : Prop where
  outside : space'.gen ≠ .transNew
  tops : SameTransTops store store'

theorem findSpace_keeps {size fuel compactTop compactTop' : Nat} (outside : space.gen ≠ .transNew)
    (found : findSpace heap size fuel store space compactTop = .ok (store', space', compactTop')) :
    KeepsTransTops store store' space' := by
  induction fuel generalizing store space compactTop with
  | zero => cases found
  | succ fuel ih =>
    rw [findSpace] at found
    split at found
    · cases switches : switchSpace heap space with
      | none =>
        rw [switches] at found
        cases found
      | some next =>
        rw [switches] at found
        have ahead := switchSpace_gen outside switches
        have rest := ih ahead found
        refine ⟨rest.outside, SameTransTops.trans ?_ rest.tops⟩
        exact (setCompactionTop_sameTransTops outside _).trans (setCompactionTop_sameTransTops ahead _)
    · cases found
      exact ⟨outside, fun _ _ => rfl⟩

theorem forwardBlock_keeps {scan scan' : Scan} {q size next : Nat}
    (outside : scan.space.gen ≠ .transNew)
    (forwarded : forwardBlock heap scan q size = .ok (next, scan')) :
    KeepsTransTops scan.store scan'.store scan'.space := by
  unfold forwardBlock forward at forwarded
  cases found : findSpace heap size (heap.transEdens + heap.survivors + 3) scan.store scan.space
      scan.compactTop with
  | error fault =>
    rw [found] at forwarded
    cases forwarded
  | ok result =>
    obtain ⟨store', space', compactTop'⟩ := result
    rw [found] at forwarded
    cases forwarded
    obtain ⟨left, tops⟩ := findSpace_keeps outside found
    exact ⟨left, tops⟩

theorem recordDead_keeps (scan : Scan) (outside : scan.space.gen ≠ .transNew) (q stop : Nat) :
    KeepsTransTops scan.store (recordDead scan q stop).store (recordDead scan q stop).space := by
  refine ⟨outside, fun eden _ => ?_⟩
  exact congrFun (setEndIfAny_compactionTop scan.liveRange q) eden

theorem scanBlock_keeps {scan scan' : Scan} {t q next : Nat} (outside : scan.space.gen ≠ .transNew)
    (scanned : scanBlock heap t q scan = .ok (next, scan')) :
    KeepsTransTops scan.store scan'.store scan'.space := by
  unfold scanBlock at scanned
  split at scanned
  · exact forwardBlock_keeps outside scanned
  · dsimp only at scanned
    split at scanned
    · unfold insertDeadspace at scanned
      by_cases short : scan.allowedDeadspace ≥
          endOfDead heap scan.store.mem t (t - q) q - q
      · rw [if_pos short] at scanned
        obtain ⟨left, tops⟩ := forwardBlock_keeps (by exact outside) scanned
        exact ⟨left, tops⟩
      · rw [if_neg short] at scanned
        cases scanned
        exact recordDead_keeps { scan with allowedDeadspace := 0 } outside _ _
    · cases scanned
      exact recordDead_keeps scan outside _ _

theorem scanLoop_keeps {scan scan' : Scan} {t fuel q : Nat} (outside : scan.space.gen ≠ .transNew)
    (scanned : scanLoop heap t fuel q scan = .ok scan') :
    KeepsTransTops scan.store scan'.store scan'.space := by
  induction fuel generalizing q scan with
  | zero =>
    rw [scanLoop] at scanned
    split at scanned
    · cases scanned
    · cases scanned
      exact ⟨outside, fun _ _ => rfl⟩
  | succ fuel ih =>
    rw [scanLoop] at scanned
    split at scanned
    · cases block : scanBlock heap t q scan with
      | error fault =>
        rw [block] at scanned
        cases scanned
      | ok result =>
        obtain ⟨next, middle⟩ := result
        rw [block] at scanned
        have first := scanBlock_keeps outside block
        have rest := ih first.outside scanned
        exact ⟨rest.outside, first.tops.trans rest.tops⟩
    · cases scanned
      exact ⟨outside, fun _ _ => rfl⟩

/-- The compact point before a scan: none yet, or one outside TransNew. -/
def PointOutside (cp : Option SpaceRef) : Prop := ∀ space, cp = some space → space.gen ≠ .transNew

/-- The scan of a space sets its own compaction top to the bottom and leaves TransNew's alone. -/
theorem scanAndForward_tops {cp : Option SpaceRef} (point : PointOutside cp)
    (scanned : scanAndForward heap this cp store = .ok (store', space')) :
    space'.gen ≠ .transNew ∧
      ∀ eden : SpaceRef, eden.gen = .transNew → store'.compactionTop eden =
        if eden = this then heap.bottom this else store.compactionTop eden := by
  have entered : (enterSpace heap this cp store).2.gen ≠ .transNew ∧
      ∀ eden : SpaceRef, eden.gen = .transNew →
        (enterSpace heap this cp store).1.compactionTop eden =
          if eden = this then heap.bottom this else store.compactionTop eden := by
    cases cp with
    | some space =>
      refine ⟨point space rfl, fun eden _ => ?_⟩
      exact update_apply store.compactionTop this (heap.bottom this) eden
    | none =>
      refine ⟨by simp [enterSpace, Heap.firstCompactionSpace], fun eden trans => ?_⟩
      have tops : SameTransTops (store.setCompactionTop this (heap.bottom this))
          (enterSpace heap this none store).1 := by
        apply setCompactionTop_sameTransTops
        simp [Heap.firstCompactionSpace]
      refine (tops eden trans).trans ?_
      exact update_apply store.compactionTop this (heap.bottom this) eden
  unfold scanAndForward at scanned
  generalize enterSpace heap this cp store = start at entered scanned
  obtain ⟨begun, point'⟩ := start
  dsimp only at entered scanned
  generalize scanning : scanLoop heap (begun.top this) (begun.top this - heap.bottom this)
    (heap.bottom this) _ = result at scanned
  cases result with
  | error fault => cases scanned
  | ok scan =>
    cases scanned
    have kept := scanLoop_keeps entered.1 scanning
    refine ⟨kept.outside, fun eden trans => ?_⟩
    have apart : eden ≠ scan.space := by
      rintro rfl
      exact kept.outside trans
    calc _ = (setEndIfAny scan.store scan.liveRange (begun.top this)).compactionTop eden :=
          update_of_ne apart _ _
      _ = scan.store.compactionTop eden := congrFun (setEndIfAny_compactionTop _ _) eden
      _ = begun.compactionTop eden := kept.tops eden trans
      _ = _ := entered.2 eden trans

theorem prepareSpaces_tops {spaces : List SpaceRef} {cp : Option SpaceRef} (point : PointOutside cp)
    (prepares : prepareSpaces heap spaces cp store = .ok store') (trans : eden.gen = .transNew) :
    store'.compactionTop eden =
      if eden ∈ spaces then heap.bottom eden else store.compactionTop eden := by
  induction spaces generalizing cp store with
  | nil =>
    cases prepares
    rfl
  | cons this spaces ih =>
    rw [prepareSpaces] at prepares
    cases scanned : scanAndForward heap this cp store with
    | error fault =>
      rw [scanned] at prepares
      cases prepares
    | ok result =>
      obtain ⟨middle, space⟩ := result
      rw [scanned] at prepares
      obtain ⟨outside, tops⟩ := scanAndForward_tops point scanned
      have point' : PointOutside (some space) := by
        rintro _ ⟨⟩
        exact outside
      rw [ih point' prepares, tops eden trans]
      by_cases here : eden = this
      · subst here
        simp
      · simp [here]

/-! ### The second pass -/

theorem scanAndCompact_tops (compacts : scanAndCompact heap this store = .ok store') :
    store'.compactionTop = store.compactionTop ∧
      store'.top = update store.top this (store.compactionTop this) := by
  unfold scanAndCompact at compacts
  dsimp only at compacts
  generalize compactLoop heap (store.endOfLive this) _ _ store.mem = result at compacts
  cases result with
  | error fault => cases compacts
  | ok mem =>
    cases compacts
    exact ⟨rfl, rfl⟩

theorem compactSpaces_top {spaces : List SpaceRef}
    (compacts : compactSpaces heap spaces store = .ok store') :
    store'.top eden = if eden ∈ spaces then store.compactionTop eden else store.top eden := by
  induction spaces generalizing store with
  | nil =>
    cases compacts
    rfl
  | cons this spaces ih =>
    rw [compactSpaces] at compacts
    cases first : scanAndCompact heap this store with
    | error fault =>
      rw [first] at compacts
      cases compacts
    | ok middle =>
      rw [first] at compacts
      obtain ⟨tops, top⟩ := scanAndCompact_tops first
      rw [ih compacts, tops, top]
      by_cases here : eden = this
      · subst here
        simp
      · simp [here]

/-! ### The destinations -/

theorem planSpaces_outside {spaces : List SpaceRef} {plans : Plans} {c c' : Cursor} {a : Nat}
    (formed : WellFormed heap store) (path : OnPath heap c) (above : heap.bottom c.bin ≤ c.top)
    (planned : planSpaces heap store spaces c = some (plans, c')) (own : Valid heap eden)
    (trans : eden.gen = .transNew) :
    ∀ entry ∈ plans, ∀ m ∈ planMoves heap entry, m.Writes a →
      a < heap.bottom eden ∨ heap.limit eden ≤ a := by
  induction spaces generalizing c plans with
  | nil =>
    cases planned
    intro entry among
    cases among
  | cons this spaces ih =>
    obtain ⟨items, m, behind, head, tail, rfl⟩ := planSpaces_cons_eq_some.mp planned
    have above' : heap.bottom (enter heap this c).bin ≤ (enter heap this c).top := by
      unfold enter
      split
      · rename_i here
        exact (congrArg heap.bottom here).le
      · exact above
    have sound := onPath_sound formed path.enter above'
    have placed := plan_placed sound head
    intro entry among move moved writes
    rcases List.mem_cons.mp among with rfl | among
    · exact free_not_transNew formed path.enter sound own trans (placed.free move moved a writes)
    · exact ih (plan_onPath path.enter head) placed.sound.above tail entry among move moved writes

/-- If both passes complete, no destination touches a transaction eden, and every transaction eden
is empty afterwards. -/
theorem mark_compact_empties_trans_edens {prepared done : Store} (formed : WellFormed heap store)
    (prepares : prepareForCompaction heap store = .ok prepared)
    (compacts : compact heap prepared = .ok done) :
    (∀ object ∈ liveObjects heap store, ∀ a, Occupies heap prepared.mem object a →
      ∀ eden ∈ heap.chain .transNew, a < heap.bottom eden ∨ heap.limit eden ≤ a) ∧
    ∀ eden ∈ heap.chain .transNew, done.top eden = heap.bottom eden := by
  constructor
  · intro object live a occupies eden listed
    obtain ⟨plans, prep⟩ := prepared_of_ok formed prepares
    obtain ⟨entry, among, -, moved⟩ := prep.move_of_live live
    obtain ⟨c', planned⟩ := prep.planned
    exact planSpaces_outside formed startCursor_onPath le_rfl planned (valid_of_mem_chain listed)
      (gen_of_mem_chain listed) entry among _ moved occupies
  · intro eden listed
    have scanned : eden ∈ heap.scanOrder := mem_scanOrder.mpr (valid_of_mem_chain listed)
    have point : PointOutside none := by
      intro space none
      cases none
    have tops := prepareSpaces_tops point prepares (gen_of_mem_chain listed)
    rw [if_pos scanned] at tops
    have top : done.top eden = _ := compactSpaces_top compacts
    rw [if_pos scanned] at top
    exact top.trans tops

/-- With the object in DefNew's eden dead the object of the first transaction eden goes there. -/
theorem crowded_edens_emptied :
    ∃ prepared done, prepareForCompaction tightHeap (crowdedStore false) = .ok prepared ∧
      compact tightHeap prepared = .ok done ∧
      (∀ object ∈ liveObjects tightHeap (crowdedStore false), ∀ a,
        Occupies tightHeap prepared.mem object a →
        ∀ eden ∈ tightHeap.chain .transNew, a < tightHeap.bottom eden ∨ tightHeap.limit eden ≤ a) ∧
      ∀ eden ∈ tightHeap.chain .transNew, done.top eden = tightHeap.bottom eden := by
  obtain ⟨prepared, prepares⟩ := crowded_prepares false
  obtain ⟨plans, prep⟩ := prepared_of_ok (crowdedStore_wellFormed false) prepares
  obtain ⟨done, compacts, -⟩ := wordsArrive_of_keepsApart (crowdedStore_wellFormed false) prep
    (.inr (by decide))
  obtain ⟨outside, empty⟩ :=
    mark_compact_empties_trans_edens (crowdedStore_wellFormed false) prepares compacts
  exact ⟨prepared, done, prepares, compacts, outside, empty⟩

end TransEdensEmptied
