import TransGC.CoveredRegions

/-!
# Calls of `resize_covered_region`

A call goes well if its region starts on a card boundary, ends in front of the guard page, and
has its cards on pages in front of the first page of every region above. Where two regions have
cards on one page of the table, a call for the lower one may clean the cards of the upper one.
-/

namespace CoveredCalls

open CardTable CoveredRegions TransitionRuns List Option

variable {setting : Setting} {st : State}

/-- The search splits the entries at the base. -/
structure Found (setting : Setting) (base : Nat) (entries below : List Entry) (own : Entry)
    (above : List Entry) : Prop where
  split : (entries = below ++ own :: above ∧ own.covered.start = base) ∨
    (entries = below ++ above ∧ own = fresh setting base ∧ ∀ e ∈ entries, e.covered.start ≠ base)
  lower : ∀ e ∈ below, e.covered.start < base
  upper : ∀ e ∈ above, base < e.covered.start

theorem findCoveringRegionByBase_found {entries : List Entry} (base : Nat)
    (sorted : entries.Pairwise Before) :
    Found setting base entries (findCoveringRegionByBase setting base entries).1
      (findCoveringRegionByBase setting base entries).2.1
      (findCoveringRegionByBase setting base entries).2.2 := by
  induction entries with
  | nil =>
    refine ⟨Or.inr ⟨rfl, rfl, ?_⟩, ?_, ?_⟩ <;> exact fun e mem => absurd mem not_mem_nil
  | cons e rest ih =>
    have later (e' : Entry) (mem : e' ∈ rest) : e.covered.start < e'.covered.start :=
      (rel_of_pairwise_cons sorted mem).1
    simp only [findCoveringRegionByBase]
    split
    next here =>
      refine ⟨Or.inl ⟨rfl, here⟩, fun e mem => absurd mem not_mem_nil, ?_⟩
      exact fun e' mem => here ▸ later e' mem
    next other =>
      split
      next behind =>
        have upper (e' : Entry) (mem : e' ∈ e :: rest) : base < e'.covered.start := by
          rcases mem_cons.mp mem with rfl | mem
          · exact behind
          · exact lt_trans behind (later e' mem)
        refine ⟨Or.inr ⟨rfl, rfl, fun e' mem => ne_of_gt (upper e' mem)⟩,
          fun e mem => absurd mem not_mem_nil, upper⟩
      next notBehind =>
        have front : e.covered.start < base := by omega
        obtain ⟨split, lower, upper⟩ := ih sorted.of_cons
        refine ⟨?_, ?_, upper⟩
        · rcases split with ⟨same, here⟩ | ⟨same, new, none⟩
          · exact Or.inl ⟨congrArg (e :: ·) same, here⟩
          · refine Or.inr ⟨congrArg (e :: ·) same, new, ?_⟩
            intro e' mem
            rcases mem_cons.mp mem with rfl | mem
            · exact other
            · exact none e' mem
        · intro e' mem
          rcases mem_cons.mp mem with rfl | mem
          · exact front
          · exact lower e' mem

theorem exists_found (setting : Setting) (base : Nat) {entries : List Entry}
    (sorted : entries.Pairwise Before) :
    ∃ below own above, findCoveringRegionByBase setting base entries = (below, own, above) ∧
      Found setting base entries below own above :=
  ⟨_, _, _, rfl, findCoveringRegionByBase_found base sorted⟩

namespace Found

variable {base : Nat} {entries below above : List Entry} {own : Entry}
  (found : Found setting base entries below own above)

include found

theorem mem_entries {e : Entry} (mem : e ∈ below ++ above) : e ∈ entries := by
  rcases found.split with ⟨split, -⟩ | ⟨split, -, -⟩
  · rw [split]
    exact (Sublist.append_left (sublist_cons_self own above) below).subset mem
  · rw [split]
    exact mem

theorem mem_others {e : Entry} (mem : e ∈ entries) (other : e.covered.start ≠ base) :
    e ∈ below ++ above := by
  rcases found.split with ⟨split, start⟩ | ⟨split, -, -⟩
  · rw [split, mem_append, mem_cons] at mem
    rcases mem with lower | rfl | upper
    · exact mem_append_left _ lower
    · exact absurd start other
    · exact mem_append_right _ upper
  · rw [← split]
    exact mem

/-- The new entry covers nothing, so an entry that covers a card was there. -/
theorem own_mem {c : Nat} (covers : CoversCard setting own.covered c) : own ∈ entries := by
  rcases found.split with ⟨split, -⟩ | ⟨-, rfl, -⟩
  · rw [split]
    exact mem_append_right _ mem_cons_self
  · exact absurd covers.1 (lt_irrefl 0)

end Found

/-- The region may be resized: it starts on a card boundary, its cards end in front of the guard
page, it does not overlap another region, and the pages of its cards end in front of the first page
of every region above. -/
structure Fits (setting : Setting) (region : MemRegion) (st : State) : Prop where
  aligned : CardAligned setting region
  belowGuard : setting.byteAfterLast region ≤ setting.guardRegion.start
  lower : ∀ e ∈ st.entries, e.covered.start < region.start → e.covered.stop ≤ region.start
  upper : ∀ e ∈ st.entries, region.start < e.covered.start →
    setting.alignSizeUp (setting.byteAfterLast region) ≤
      setting.alignSizeDown (setting.byteFor e.covered.start)
  new : (∀ e ∈ st.entries, e.covered.start ≠ region.start) →
    0 < region.wordSize ∧ st.entries.length < setting.maxCoveredRegions

/-- During a call the committed part of the entry in question may be too small: it may be new. -/
structure Turn (setting : Setting) (region : MemRegion) (memory : Memory) (below : List Entry)
    (own : Entry) (above : List Entry) : Prop where
  lower : ∀ e ∈ below, Placed setting e ∧ e.covered.start < region.start ∧
    e.covered.stop ≤ region.start
  upper : ∀ e ∈ above, Placed setting e ∧ region.start < e.covered.start ∧
    own.covered.stop ≤ e.covered.start ∧
    setting.alignSizeUp (setting.byteAfterLast region) ≤
      setting.alignSizeDown (setting.byteFor e.covered.start)
  aligned : CardAligned setting region
  start : own.covered.start = region.start
  first : own.committed.start = setting.alignSizeDown (setting.byteFor region.start)
  last : own.committed.stop ≤ setting.alignSizeUp (setting.byteAfterLast own.covered)
  belowGuard : setting.byteAfterLast own.covered ≤ setting.guardRegion.start
  backed : ∀ e ∈ below ++ own :: above, ∀ c, e.committed.Contains c → memory.backed c = true
  sorted : (below ++ above).Pairwise Before

variable {region : MemRegion} {below above : List Entry} {own : Entry}

section Opening

variable (laid : Laid setting st) (fits : Fits setting region st)
include laid fits

theorem Turn.of_existing (found : Found setting region.start st.entries below own above)
    (split : st.entries = below ++ own :: above) (start : own.covered.start = region.start) :
    Turn setting region st.memory below own above := by
  have sorted := laid.sorted
  rw [split] at sorted
  have placed : Placed setting own := by
    refine laid.placed own ?_
    rw [split]
    exact mem_append_right _ mem_cons_self
  constructor
  · intro e mem
    have among := found.mem_entries (mem_append_left above mem)
    exact ⟨laid.placed e among, found.lower e mem, fits.lower e among (found.lower e mem)⟩
  · intro e mem
    have among := found.mem_entries (mem_append_right below mem)
    have behind := rel_of_pairwise_cons (pairwise_append.mp sorted).2.1 mem
    exact ⟨laid.placed e among, found.upper e mem, behind.2, fits.upper e among (found.upper e mem)⟩
  · exact fits.aligned
  · exact start
  · rw [placed.first, start]
  · exact le_of_eq placed.last
  · exact placed.belowGuard
  · rw [← split]
    exact laid.backed
  · exact sorted.sublist (Sublist.append_left (sublist_cons_self own above) below)

theorem Turn.of_new
    (found : Found setting region.start st.entries below (fresh setting region.start) above)
    (split : st.entries = below ++ above) :
    Turn setting region st.memory below (fresh setting region.start) above := by
  have aligned : CardAligned setting (fresh setting region.start).covered := fits.aligned
  have firstLe := byteFor_le_byteAfterLast aligned
  have guardLe := byteAfterLast_le_byteFor fits.aligned
    (le_refl (fresh setting region.start).covered.stop)
  have regionLe := byteFor_le_byteAfterLast fits.aligned
  constructor
  · intro e mem
    have among := found.mem_entries (mem_append_left above mem)
    exact ⟨laid.placed e among, found.lower e mem, fits.lower e among (found.lower e mem)⟩
  · intro e mem
    have among := found.mem_entries (mem_append_right below mem)
    exact ⟨laid.placed e among, found.upper e mem, le_of_lt (found.upper e mem),
      fits.upper e among (found.upper e mem)⟩
  · exact fits.aligned
  · rfl
  · rfl
  · exact le_trans alignSizeDown_le (le_trans firstLe le_alignSizeUp)
  · exact le_trans guardLe (le_trans regionLe fits.belowGuard)
  · intro e mem c inside
    rcases mem_append.mp mem with mem | mem
    · exact laid.backed e (found.mem_entries (mem_append_left above mem)) c inside
    · rcases mem_cons.mp mem with rfl | mem
      · exact absurd inside (MemRegion.not_contains_of_isEmpty rfl)
      · exact laid.backed e (found.mem_entries (mem_append_right below mem)) c inside
  · rw [← split]
    exact laid.sorted

theorem Turn.of_found (found : Found setting region.start st.entries below own above) :
    Turn setting region st.memory below own above := by
  rcases found.split with ⟨split, start⟩ | ⟨split, rfl, -⟩
  · exact .of_existing laid fits found split start
  · exact .of_new laid fits found split

end Opening

section Call

variable {memory : Memory} (turn : Turn setting region memory below own above)

theorem largestPrevCommittedEnd_spec (entries : List Entry) (maxEnd : Nat) :
    maxEnd ≤ largestPrevCommittedEnd entries maxEnd ∧
    (∀ e ∈ entries, e.committed.stop ≤ largestPrevCommittedEnd entries maxEnd) ∧
    (largestPrevCommittedEnd entries maxEnd = maxEnd ∨
      ∃ e ∈ entries, largestPrevCommittedEnd entries maxEnd = e.committed.stop) := by
  induction entries generalizing maxEnd with
  | nil => exact ⟨le_refl _, fun e mem => absurd mem not_mem_nil, Or.inl rfl⟩
  | cons e rest ih =>
    rw [largestPrevCommittedEnd]
    obtain ⟨atLeast, bounds, attained⟩ :=
      ih (if e.committed.stop > maxEnd then e.committed.stop else maxEnd)
    refine ⟨?_, ?_, ?_⟩
    · refine le_trans ?_ atLeast
      split <;> omega
    · intro e' mem
      rcases mem_cons.mp mem with rfl | mem
      · refine le_trans ?_ atLeast
        split <;> omega
      · exact bounds e' mem
    · rcases attained with same | ⟨e', mem, same⟩
      · rw [same]
        split
        · exact Or.inr ⟨e, mem_cons_self, rfl⟩
        · exact Or.inl rfl
      · exact Or.inr ⟨e', mem_cons_of_mem e mem, same⟩

theorem lower_stop_le (own : Entry) {e : Entry} (mem : e ∈ below) :
    e.committed.stop ≤ (curCommitted below own).stop := by
  have order : own.committed.start ≤ own.committed.stop := Nat.le_add_right _ _
  have bound := (largestPrevCommittedEnd_spec below 0).2.1 e mem
  rw [curCommitted]
  split
  next more =>
    rw [MemRegion.stop_between (by omega)]
    exact bound
  next => omega

theorem avoidCollision_of_start {newEnd : Nat} {others : List Entry}
    (collides : ∀ e ∈ others, e.committed.Contains newEnd → e.committed.start = newEnd) :
    avoidCollision newEnd others = newEnd := by
  induction others with
  | nil => rfl
  | cons e rest ih =>
    rw [avoidCollision]
    split
    next inside => exact collides e mem_cons_self inside
    next => exact ih fun e mem => collides e (mem_cons_of_mem _ mem)

/-- Every committed region that is taken away starts at or before the lower bound, or ends at or
behind the upper one. -/
theorem minusCommitted_spec {others : List Entry} {mr : MemRegion} {low high : Nat}
    (outer : ∀ e ∈ others, e.committed.start ≤ low ∨ high ≤ e.committed.stop)
    (stop : mr.stop ≤ high) (above : low ≤ mr.start ∨ mr.stop = 0) :
    ∃ rest, minusCommitted others mr = some rest ∧ rest.stop ≤ high ∧
      (low ≤ rest.start ∨ rest.stop = 0) ∧
      ∀ c, rest.Contains c ↔ mr.Contains c ∧ ∀ e ∈ others, ¬ e.committed.Contains c := by
  induction others generalizing mr with
  | nil =>
    refine ⟨mr, rfl, stop, above, fun c => ⟨fun inside => ⟨inside, ?_⟩, fun held => held.1⟩⟩
    exact fun e mem => absurd mem not_mem_nil
  | cons e others ih =>
    have notInterior : e.committed.start ≤ mr.start ∨ mr.stop ≤ e.committed.stop := by
      rcases outer e mem_cons_self with front | behind
      · omega
      · exact Or.inr (le_trans stop behind)
    obtain ⟨middle, first, middleStop, middleAbove⟩ :=
      MemRegion.minus_of_not_interior notInterior above
    obtain ⟨rest, later, restStop, restAbove, words⟩ :=
      ih (fun e mem => outer e (mem_cons_of_mem _ mem)) (by omega) middleAbove
    refine ⟨rest, ?_, restStop, restAbove, ?_⟩
    · rw [minusCommitted, first]
      exact later
    · intro c
      rw [words c, MemRegion.contains_minus first, forall_mem_cons, and_assoc]

include turn

theorem Turn.aligned_own : CardAligned setting own.covered := by
  have aligned := turn.aligned
  rw [CardAligned] at aligned ⊢
  rw [turn.start]
  exact aligned

/-- The pages of a region below end in front of the page boundary behind the own first card. -/
theorem Turn.lower_stop {e : Entry} (mem : e ∈ below) :
    e.committed.stop ≤ setting.alignSizeUp (setting.byteFor region.start) := by
  obtain ⟨placed, -, before⟩ := turn.lower e mem
  rw [placed.last]
  exact alignSizeUp_mono (byteAfterLast_le_byteFor turn.aligned before)

theorem Turn.curCommitted_stop_le :
    (curCommitted below own).stop ≤ setting.alignSizeUp (setting.byteAfterLast own.covered) := by
  have order : own.committed.start ≤ own.committed.stop := Nat.le_add_right _ _
  have first : setting.byteFor region.start ≤ setting.byteAfterLast own.covered :=
    turn.start ▸ byteFor_le_byteAfterLast turn.aligned_own
  rw [curCommitted]
  split
  next more =>
    rw [MemRegion.stop_between (by omega)]
    rcases (largestPrevCommittedEnd_spec below 0).2.2 with zero | ⟨e, mem, same⟩
    · omega
    · rw [same]
      exact le_trans (turn.lower_stop mem) (alignSizeUp_mono first)
  next => exact turn.last

/-- All of it is committed memory: what was added belongs to a region below. -/
theorem Turn.curCommitted_backed {c : Nat} (low : own.committed.start ≤ c)
    (high : c < (curCommitted below own).stop) : memory.backed c = true := by
  by_cases inOwn : c < own.committed.stop
  · exact turn.backed own (mem_append_right _ mem_cons_self) c ⟨low, inOwn⟩
  · have order : own.committed.start ≤ own.committed.stop := Nat.le_add_right _ _
    rw [curCommitted] at high
    split at high
    next more =>
      rw [MemRegion.stop_between (by omega)] at high
      rcases (largestPrevCommittedEnd_spec below 0).2.2 with zero | ⟨e, mem, same⟩
      · omega
      · obtain ⟨placed, front, -⟩ := turn.lower e mem
        have startLe : e.committed.start ≤ own.committed.start := by
          rw [placed.first, turn.first]
          exact alignSizeDown_mono (byteFor_mono (le_of_lt front))
        exact turn.backed e (mem_append_left _ mem) c ⟨by omega, by omega⟩
    next => exact absurd high inOwn

/-- No other committed region contains the new end, unless it starts there. -/
theorem Turn.avoidCollision_eq :
    avoidCollision (setting.alignSizeUp (setting.byteAfterLast region)) (below ++ above) =
      setting.alignSizeUp (setting.byteAfterLast region) := by
  have collides (e : Entry) (mem : e ∈ below ++ above)
      (inside : e.committed.Contains (setting.alignSizeUp (setting.byteAfterLast region))) :
      e.committed.start = setting.alignSizeUp (setting.byteAfterLast region) := by
    rcases mem_append.mp mem with lower | upper
    · have stop := turn.lower_stop lower
      have mono : setting.alignSizeUp (setting.byteFor region.start) ≤
          setting.alignSizeUp (setting.byteAfterLast region) :=
        alignSizeUp_mono (byteFor_le_byteAfterLast turn.aligned)
      have := inside.2
      omega
    · obtain ⟨placed, -, -, behind⟩ := turn.upper e upper
      rw [← placed.first] at behind
      exact le_antisymm inside.1 behind
  exact avoidCollision_of_start collides

/-- The part that may be uncommitted has no word of another region. -/
theorem Turn.committedUniqueToSelf_spec {newEnd : Nat} (low : own.committed.start ≤ newEnd)
    (shrinks : newEnd < (curCommitted below own).stop) :
    ∃ rest, committedUniqueToSelf setting (below ++ above)
        (.between newEnd (curCommitted below own).stop) = some rest ∧
      ∀ c, rest.Contains c → newEnd ≤ c ∧ ∀ e ∈ below ++ above, ¬ e.committed.Contains c := by
  have stopLe := turn.curCommitted_stop_le
  have outer : ∀ e ∈ below ++ above, e.committed.start ≤ newEnd ∨
      (curCommitted below own).stop ≤ e.committed.stop := by
    intro e mem
    rcases mem_append.mp mem with lower | upper
    · obtain ⟨placed, front, -⟩ := turn.lower e lower
      left
      rw [placed.first]
      refine le_trans (alignSizeDown_mono (byteFor_mono (le_of_lt front))) ?_
      rw [← turn.first]
      exact low
    · obtain ⟨placed, -, behind, -⟩ := turn.upper e upper
      right
      refine le_trans stopLe ?_
      rw [placed.last]
      exact alignSizeUp_mono (le_trans (byteAfterLast_le_byteFor placed.aligned behind)
        (byteFor_le_byteAfterLast placed.aligned))
  have range := MemRegion.stop_between (le_of_lt shrinks)
  obtain ⟨middle, first, middleStop, middleAbove, words⟩ :=
    minusCommitted_spec outer (le_of_eq range) (Or.inl (le_refl newEnd))
  have guardStop : middle.stop ≤ setting.guardRegion.stop := by
    have guardLe : setting.alignSizeUp (setting.byteAfterLast own.covered) ≤
        setting.guardRegion.start := alignSizeUp_le_alignSizeDown turn.belowGuard
    exact le_trans middleStop (le_trans stopLe
      (le_trans guardLe (Nat.le_add_right _ _)))
  obtain ⟨rest, second, -, -⟩ := MemRegion.minus_of_not_interior (Or.inr guardStop) middleAbove
  refine ⟨rest, ?_, ?_⟩
  · rw [committedUniqueToSelf, first]
    exact second
  · intro c inside
    have held := (words c).mp ((MemRegion.contains_minus second).mp inside).1
    exact ⟨(MemRegion.contains_between.mp held.1).1, held.2⟩

/-- The new pages of the region are committed and those of the other regions still are. Only cards
behind the committed part may have changed. -/
theorem Turn.adjustCommitted_spec {newEnd : Nat} (low : own.committed.start ≤ newEnd) :
    ∃ memory', adjustCommitted setting true (below ++ above) own (curCommitted below own) newEnd
        newEnd memory = some (memory', newEnd) ∧
      (∀ e ∈ below ++ above, ∀ c, e.committed.Contains c → memory'.backed c = true) ∧
      (∀ c, own.committed.start ≤ c → c < newEnd → memory'.backed c = true) ∧
      ∀ c, c < (curCommitted below own).stop ∨ newEnd ≤ c → memory'.cards c = memory.cards c := by
  have others (e : Entry) (mem : e ∈ below ++ above) (c : Nat)
      (inside : e.committed.Contains c) : memory.backed c = true := by
    refine turn.backed e ?_ c inside
    rcases mem_append.mp mem with lower | upper
    · exact mem_append_left _ lower
    · exact mem_append_right _ (mem_cons_of_mem _ upper)
  rw [adjustCommitted]
  split
  next grows =>
    refine ⟨_, rfl, ?_, ?_, ?_⟩
    · intro e mem c inside
      simp only [Memory.commit, others e mem c inside, Bool.or_true]
    · intro c above below'
      by_cases old : c < (curCommitted below own).stop
      · simp only [Memory.commit, turn.curCommitted_backed above old, Bool.or_true]
      · simp only [Memory.commit, MemRegion.contains_between,
          (⟨le_of_not_gt old, below'⟩ : _ ∧ _), and_self, decide_true, Bool.true_or]
    · intro c outside
      refine if_neg ?_
      rw [MemRegion.contains_between]
      omega
  next notGrows =>
    split
    next shrinks =>
      obtain ⟨rest, found, unique⟩ := turn.committedUniqueToSelf_spec low shrinks
      simp only [found, bind_eq_bind, bind_some, if_true]
      split
      · refine ⟨memory, rfl, others, ?_, fun c _ => rfl⟩
        exact fun c above below' => turn.curCommitted_backed above (by omega)
      · refine ⟨_, rfl, ?_, ?_, fun c _ => rfl⟩
        · intro e mem c inside
          have kept : ¬ rest.Contains c := fun lost => (unique c lost).2 e mem inside
          simp only [Memory.uncommit, kept, decide_false, Bool.not_false, Bool.true_and]
          exact others e mem c inside
        · intro c above below'
          have kept : ¬ rest.Contains c := fun lost => by
            have := (unique c lost).1
            omega
          simp only [Memory.uncommit, kept, decide_false, Bool.not_false, Bool.true_and]
          exact turn.curCommitted_backed above (by omega)
    next same =>
      refine ⟨memory, rfl, others, ?_, fun c _ => rfl⟩
      exact fun c above below' => turn.curCommitted_backed above (by omega)

theorem Turn.region_stop_le {e : Entry} (mem : e ∈ above) : region.stop ≤ e.covered.start := by
  obtain ⟨-, -, -, apart⟩ := turn.upper e mem
  have cardsApart : setting.byteAfterLast region ≤ setting.byteFor e.covered.start :=
    le_trans le_alignSizeUp (le_trans apart alignSizeDown_le)
  exact le_trans (byteAfterLast_le_iff.mp cardsApart) (Nat.div_mul_le_self _ _)

theorem Turn.first_le_newEnd :
    own.committed.start ≤ setting.alignSizeUp (setting.byteAfterLast region) := by
  rw [turn.first]
  exact le_trans alignSizeDown_le
    (le_trans (byteFor_le_byteAfterLast turn.aligned) le_alignSizeUp)

theorem Turn.entry_placed (belowGuard : setting.byteAfterLast region ≤ setting.guardRegion.start) :
    Placed setting ⟨region, .between own.committed.start
      (setting.alignSizeUp (setting.byteAfterLast region))⟩ where
  aligned := turn.aligned
  first := turn.first
  last := MemRegion.stop_between turn.first_le_newEnd
  belowGuard := belowGuard

theorem Turn.entries_sorted (committed : MemRegion) :
    (below ++ ⟨region, committed⟩ :: above).Pairwise Before := by
  obtain ⟨lowerSorted, upperSorted, across⟩ := pairwise_append.mp turn.sorted
  refine pairwise_append.mpr ⟨lowerSorted, pairwise_cons.mpr ⟨?_, upperSorted⟩, ?_⟩
  · intro e mem
    exact ⟨(turn.upper e mem).2.1, turn.region_stop_le mem⟩
  · intro e lower e' mem
    rcases mem_cons.mp mem with rfl | upper
    · exact ⟨(turn.lower e lower).2.1, (turn.lower e lower).2.2⟩
    · exact across e lower e' upper

/-- The cards of another region are in front of the ones the call works on, or behind them. -/
theorem Turn.other_cards {e : Entry} {c : Nat} (mem : e ∈ below ++ above)
    (covers : CoversCard setting e.covered c) :
    (c < setting.byteAfterLast own.covered ∧ c < (curCommitted below own).stop) ∨
      setting.alignSizeUp (setting.byteAfterLast region) ≤ c := by
  obtain ⟨low, high⟩ := covers.bounds
  rcases mem_append.mp mem with lower | upper
  · obtain ⟨placed, -, before⟩ := turn.lower e lower
    have cardsBefore := byteAfterLast_le_byteFor turn.aligned before
    have ownCards : setting.byteFor region.start ≤ setting.byteAfterLast own.covered :=
      turn.start ▸ byteFor_le_byteAfterLast turn.aligned_own
    have committed := (placed.covers_committed covers).2
    have reach := lower_stop_le own lower
    exact Or.inl ⟨by omega, lt_of_lt_of_le committed reach⟩
  · obtain ⟨-, -, -, apart⟩ := turn.upper e upper
    exact Or.inr (le_trans apart (le_trans alignSizeDown_le low))

theorem Turn.resizeCoveredRegion_spec {entries : List Entry}
    (belowGuard : setting.byteAfterLast region ≤ setting.guardRegion.start)
    (found : findCoveringRegionByBase setting region.start entries = (below, own, above))
    (room : below.length + 1 + above.length ≤ setting.maxCoveredRegions)
    (changes : region.wordSize ≠ own.covered.wordSize) :
    ∃ memory', resizeCoveredRegion setting true region ⟨entries, memory⟩ =
        some ⟨below ++ ⟨region, .between own.committed.start
          (setting.alignSizeUp (setting.byteAfterLast region))⟩ :: above, memory'⟩ ∧
      (∀ e ∈ below ++ above, ∀ c, e.committed.Contains c → memory'.backed c = true) ∧
      (∀ c, own.committed.start ≤ c → c < setting.alignSizeUp (setting.byteAfterLast region) →
        memory'.backed c = true) ∧
      (∀ c, (c < setting.byteAfterLast own.covered ∧ c < (curCommitted below own).stop) ∨
        setting.alignSizeUp (setting.byteAfterLast region) ≤ c →
        memory'.cards c = memory.cards c) ∧
      ∀ c, setting.byteAfterLast own.covered ≤ c →
        c < setting.alignSizeUp (setting.byteAfterLast region) →
        memory'.cards c = cleanCard := by
  obtain ⟨adjusted, adjusts, others, ownPages, kept⟩ :=
    turn.adjustCommitted_spec turn.first_le_newEnd
  have uncut : min (setting.alignSizeUp (setting.byteAfterLast region))
      setting.guardRegion.start = setting.alignSizeUp (setting.byteAfterLast region) :=
    min_eq_left (alignSizeUp_le_alignSizeDown belowGuard)
  have sameRegion : (⟨own.covered.start, region.wordSize⟩ : MemRegion) = region := by
    rw [turn.start]
  refine ⟨if setting.byteAfterLast own.covered <
      setting.alignSizeUp (setting.byteAfterLast region) then
      adjusted.clean (setting.byteAfterLast own.covered)
        (setting.alignSizeUp (setting.byteAfterLast region)) else adjusted, ?_, ?_, ?_, ?_, ?_⟩
  · rw [resizeCoveredRegion]
    simp only [found, Nat.not_lt.mpr room, if_false, changes, ne_eq, not_false_iff, if_true,
      turn.avoidCollision_eq, uncut, adjusts, bind_eq_bind, bind_some, sameRegion]
  · intro e mem c inside
    split
    · exact others e mem c inside
    · exact others e mem c inside
  · intro c low high
    split
    · exact ownPages c low high
    · exact ownPages c low high
  · intro c outside
    split
    next =>
      rw [← kept c (by omega)]
      exact if_neg (by omega)
    next => exact kept c (by omega)
  · intro c low high
    rw [if_pos (lt_of_le_of_lt low high)]
    exact if_pos ⟨low, high⟩

end Call

theorem resizeCoveredRegion_same (uncommitOk : Bool)
    (laid : Laid setting st) (present : ∃ e ∈ st.entries, e.covered = region) :
    resizeCoveredRegion setting uncommitOk region st = some st := by
  obtain ⟨e, mem, rfl⟩ := present
  obtain ⟨below, own, above, search, found⟩ := exists_found setting e.covered.start laid.sorted
  rcases found.split with ⟨split, start⟩ | ⟨-, -, absent⟩
  · have sorted := laid.sorted
    have room := laid.room
    rw [split] at sorted mem room
    -- the starts are distinct, so the search comes to the entry itself
    have same : own = e := by
      rcases mem_append.mp mem with lower | rest
      · exact absurd (found.lower e lower) (lt_irrefl _)
      · rcases mem_cons.mp rest with rfl | upper
        · rfl
        · exact absurd (found.upper e upper) (lt_irrefl _)
    subst same
    have fits : ¬ setting.maxCoveredRegions < below.length + 1 + above.length := by
      rw [length_append, length_cons] at room
      omega
    rw [resizeCoveredRegion]
    simp only [search, fits, if_false, ne_eq, not_true_eq_false, ← split]
  · exact absurd rfl (absent e mem)

section Fitting

variable (laid : Laid setting st) (fits : Fits setting region st)
  (found : Found setting region.start st.entries below own above)

include laid fits found

theorem Fits.room : below.length + 1 + above.length ≤ setting.maxCoveredRegions := by
  rcases found.split with ⟨split, -⟩ | ⟨split, -, absent⟩
  · have room := laid.room
    rw [split, length_append, length_cons] at room
    omega
  · have room := (fits.new absent).2
    rw [split, length_append] at room
    omega

omit laid in
theorem Fits.resized (changes : ∀ e ∈ st.entries, e.covered ≠ region) :
    region.wordSize ≠ own.covered.wordSize := by
  intro same
  rcases found.split with ⟨split, start⟩ | ⟨-, rfl, absent⟩
  · refine changes own ?_ ?_
    · rw [split]
      exact mem_append_right _ mem_cons_self
    · calc own.covered
        _ = ⟨own.covered.start, own.covered.wordSize⟩ := rfl
        _ = ⟨region.start, region.wordSize⟩ := by rw [start, same]
  · exact absurd same (ne_of_gt (fits.new absent).1)

end Fitting

/-- A call for a region that fits returns, keeps the invariant, and is sound. -/
theorem resizeCoveredRegion_of_fits (laid : Laid setting st)
    (fits : Fits setting region st) (changes : ∀ e ∈ st.entries, e.covered ≠ region) :
    ∃ after, resizeCoveredRegion setting true region st = some after ∧ Laid setting after ∧
      CallSound setting region st after := by
  obtain ⟨below, own, above, search, found⟩ := exists_found setting region.start laid.sorted
  have turn := Turn.of_found laid fits found
  have room := fits.room laid found
  obtain ⟨memory', returns, others, ownPages, kept, cleaned⟩ :=
    turn.resizeCoveredRegion_spec fits.belowGuard search room (fits.resized found changes)
  refine ⟨_, returns, ?_, ?_⟩
  · constructor
    · intro e mem
      rcases mem_append.mp mem with lower | rest
      · exact (turn.lower e lower).1
      · rcases mem_cons.mp rest with rfl | upper
        · exact turn.entry_placed fits.belowGuard
        · exact (turn.upper e upper).1
    · exact turn.entries_sorted _
    · intro e mem c inside
      rcases mem_append.mp mem with lower | rest
      · exact others e (mem_append_left _ lower) c inside
      · rcases mem_cons.mp rest with rfl | upper
        · rw [MemRegion.contains_between] at inside
          exact ownPages c inside.1 inside.2
        · exact others e (mem_append_right _ upper) c inside
    · rw [length_append, length_cons]
      omega
  · constructor
    · intro e mem other c covers
      exact kept c (turn.other_cards (found.mem_others mem other) covers)
    · have inFront : setting.alignSizeUp (setting.byteAfterLast region) ≤
          setting.alignSizeDown setting.guardIndex :=
        alignSizeUp_le_alignSizeDown fits.belowGuard
      exact kept _ (Or.inr (le_trans inFront alignSizeDown_le))
    · intro c covered uncovered
      obtain ⟨e, mem, covers⟩ := covered
      have new : e ∉ below ++ above := fun other =>
        uncovered ⟨e, found.mem_entries other, covers⟩
      -- the card belongs to the region in question, and lies behind its old end
      have own' : e.covered = region := by
        rcases mem_append.mp mem with lower | rest
        · exact absurd (mem_append_left above lower) new
        · rcases mem_cons.mp rest with rfl | upper
          · rfl
          · exact absurd (mem_append_right below upper) new
      rw [own'] at covers
      obtain ⟨low, high⟩ := covers.bounds
      refine cleaned c (le_of_not_gt fun inOld => uncovered ?_)
        (lt_of_lt_of_le high le_alignSizeUp)
      have before : CoversCard setting own.covered c :=
        coversCard_of_bounds turn.aligned_own (by rw [turn.start]; exact low) inOld
      exact ⟨own, found.own_mem before, before⟩

instance (region : MemRegion) (st : State) : Decidable (Fits setting region st) :=
  decidable_of_iff
    (CardAligned setting region ∧
      setting.byteAfterLast region ≤ setting.guardRegion.start ∧
      (∀ e ∈ st.entries, e.covered.start < region.start → e.covered.stop ≤ region.start) ∧
      (∀ e ∈ st.entries, region.start < e.covered.start →
        setting.alignSizeUp (setting.byteAfterLast region) ≤
          setting.alignSizeDown (setting.byteFor e.covered.start)) ∧
      ((∀ e ∈ st.entries, e.covered.start ≠ region.start) →
        0 < region.wordSize ∧ st.entries.length < setting.maxCoveredRegions))
    ⟨fun ⟨aligned, belowGuard, lower, upper, new⟩ => ⟨aligned, belowGuard, lower, upper, new⟩,
      fun fits => ⟨fits.aligned, fits.belowGuard, fits.lower, fits.upper, fits.new⟩⟩

/-- A call leaves its region as it is or fits, and the system takes pages back when asked to. -/
def Allowed (setting : Setting) (st : State) : Event → Prop
  | .resize region uncommitOk =>
    uncommitOk = true ∧ ((∃ e ∈ st.entries, e.covered = region) ∨ Fits setting region st)
  | .write c _ => Covered setting st c

instance (e : Event) : Decidable (Allowed setting st e) :=
  match e with
  | .resize _ _ => inferInstanceAs (Decidable (_ ∧ _))
  | .write c _ => inferInstanceAs (Decidable (Covered setting st c))

def Admissible (setting : Setting) (st : State) (events : List Event) : Prop :=
  checkRun (step setting) (fun st e => decide (Allowed setting st e)) st events = true

instance (events : List Event) : Decidable (Admissible setting st events) :=
  inferInstanceAs (Decidable (_ = true))

/-- An allowed event happens, keeps the invariant, and is sound if it is a call. -/
theorem step_of_allowed {e : Event} (laid : Laid setting st) (allowed : Allowed setting st e) :
    ∃ after, step setting st e = some after ∧ Laid setting after ∧
      ∀ region uncommitOk, e = .resize region uncommitOk → CallSound setting region st after := by
  cases e with
  | resize region uncommitOk =>
    obtain ⟨rfl, same⟩ := allowed
    by_cases present : ∃ e ∈ st.entries, e.covered = region
    · refine ⟨st, resizeCoveredRegion_same true laid present, laid, ?_⟩
      rintro _ _ ⟨⟩
      exact ⟨fun _ _ _ _ _ => rfl, rfl, fun c covered uncovered => absurd covered uncovered⟩
    · have fits := same.resolve_left present
      have changes : ∀ e ∈ st.entries, e.covered ≠ region := fun e mem equal =>
        present ⟨e, mem, equal⟩
      obtain ⟨after, returns, laidAfter, sound⟩ := resizeCoveredRegion_of_fits laid fits changes
      refine ⟨after, returns, laidAfter, ?_⟩
      rintro _ _ ⟨⟩
      exact sound
  | write c v =>
    refine ⟨_, if_pos allowed, ?_, fun _ _ call => nomatch call⟩
    exact ⟨laid.placed, laid.sorted, laid.backed, laid.room⟩

theorem Admissible.run_append {front back : List Event} (laid : Laid setting st)
    (admissible : Admissible setting st (front ++ back)) :
    ∃ m, run (step setting) st front = some m ∧ Laid setting m ∧ Admissible setting m back := by
  induction front generalizing st with
  | nil => exact ⟨st, rfl, laid, admissible⟩
  | cons e front ih =>
    rw [Admissible, cons_append, checkRun, Bool.and_eq_true, decide_eq_true_eq]
      at admissible
    obtain ⟨allowed, rest⟩ := admissible
    obtain ⟨after, taken, laidAfter, -⟩ := step_of_allowed laid allowed
    rw [taken] at rest
    obtain ⟨m, reached, laidLast, later⟩ := ih laidAfter rest
    exact ⟨m, run_cons_eq_some.mpr ⟨after, taken, reached⟩, laidLast, later⟩

/-- In an admissible run every call returns, the regions stay sorted, disjoint and backed, and every
call leaves the cards of the other regions and the guard card alone and cleans the new ones. -/
theorem resize_calls_sound {events : List Event}
    (admissible : Admissible setting (newTable setting) events) :
    (∃ last, run (step setting) (newTable setting) events = some last ∧ Sound setting last) ∧
    ∀ front e back, events = front ++ e :: back →
      ∃ before after, run (step setting) (newTable setting) front = some before ∧
        step setting before e = some after ∧ Sound setting after ∧
        ∀ region uncommitOk, e = .resize region uncommitOk →
          CallSound setting region before after := by
  constructor
  · rw [← append_nil events] at admissible
    obtain ⟨last, reached, laid, -⟩ := admissible.run_append newTable_laid
    exact ⟨last, reached, laid.sound⟩
  · rintro front e back rfl
    obtain ⟨before, reached, laid, rest⟩ := admissible.run_append newTable_laid
    rw [Admissible, checkRun, Bool.and_eq_true, decide_eq_true_eq] at rest
    obtain ⟨after, taken, laidAfter, sound⟩ := step_of_allowed laid rest.1
    exact ⟨before, after, reached, taken, laidAfter.sound, sound⟩

private def fourPages : Setting where
  cardSizeInWords := 64
  pageSize := 4096
  heapWords := 4 * 4096 * 64
  maxCoveredRegions := 4
  cardPositive := by decide
  pagePositive := by decide

/-- The lower one of two regions grows over a page boundary of the table and shrinks again. -/
theorem resize_calls_sound_pages :
    ∃ last, run (step fourPages) (newTable fourPages)
      [.resize ⟨0, 64⟩ true, .resize ⟨3 * 4096 * 64, 640⟩ true, .write (3 * 4096) dirtyCard,
        .resize ⟨0, 5000 * 64⟩ true, .resize ⟨0, 64⟩ true] = some last ∧
      Sound fourPages last :=
  (resize_calls_sound (by decide +kernel)).1

/-- Two regions have cards on one page of the table. When the lower one grows, the call cleans the
rest of the page, and with it the dirty card of the upper region. -/
theorem growth_cleans_neighbour :
    ∃ before after, run (step fourPages) (newTable fourPages)
        [.resize ⟨0, 64⟩ true, .resize ⟨128 * 64, 64⟩ true, .write 128 dirtyCard] =
          some before ∧
      step fourPages before (.resize ⟨0, 128 * 64⟩ true) = some after ∧
      after.entries.map (·.covered) = [⟨0, 128 * 64⟩, ⟨128 * 64, 64⟩] ∧
      CoversCard fourPages ⟨128 * 64, 64⟩ 128 ∧
      before.memory.cards 128 = dirtyCard ∧ after.memory.cards 128 = cleanCard := by
  have observed : ((run (step fourPages) (newTable fourPages)
      [.resize ⟨0, 64⟩ true, .resize ⟨128 * 64, 64⟩ true, .write 128 dirtyCard]).bind
        fun before => (step fourPages before (.resize ⟨0, 128 * 64⟩ true)).map fun after =>
          (after.entries.map (·.covered), before.memory.cards 128, after.memory.cards 128)) =
      some ([⟨0, 128 * 64⟩, ⟨128 * 64, 64⟩], dirtyCard, cleanCard) := by
    decide +kernel
  obtain ⟨before, reached, rest⟩ := bind_eq_some_iff.mp observed
  obtain ⟨after, taken, values⟩ := map_eq_some_iff.mp rest
  rw [Prod.mk.injEq, Prod.mk.injEq] at values
  exact ⟨before, after, reached, taken, values.1, by decide +kernel, values.2.1, values.2.2⟩

end CoveredCalls
