import TransGC.ForwardScan

/-!
# The compaction pass carries out the plan

The second pass walks over the items that the first one left in the mark words: it skips the
objects at the bottom that stay, then moves one object after the other. As long as no move
writes above its own source in the space being walked, the pass does what the list of moves says.
-/
namespace CompactionMoves
open CompactSpaces MarkWord OrderedMoves ForwardPlan ForwardScan List

def moves : Nat → List Item → List Move
  | _, [] => []
  | q, .placed size target :: items => ⟨q, size, target⟩ :: moves (q + size) items
  | q, .gap size :: items => moves (q + size) items

/-- No placed item is at its own target. -/
def Moving : Nat → List Item → Prop
  | _, [] => True
  | q, .placed size target :: items => target ≠ q ∧ Moving (q + size) items
  | q, .gap size :: items => Moving (q + size) items

/-- Up to the first gap every item stays; behind it none does. -/
def Staying : Nat → List Item → Prop
  | _, [] => True
  | q, .placed size target :: items => target = q ∧ Staying (q + size) items
  | q, .gap size :: items => Moving (q + size) items

def Dense (q : Nat) (items : List Item) : Prop := Moving q items ∨ Staying q items

/-- In the space that ends at `t`, a move writes nothing above its own source. -/
def Downward (t : Nat) (m : Move) : Prop :=
  ∀ a, m.Writes a → a < m.source + m.size ∨ t ≤ a

variable {heap : Heap} {mem : Nat → Nat} {q t acc fuel : Nat} {items : List Item}

theorem compactLoop_done (above : ¬ q < t) : compactLoop heap t fuel q mem = .ok mem := by
  cases fuel with
  | zero => exact if_neg above
  | succ fuel => exact if_neg above

theorem compactLoop_gap {next : Nat} (below : q < t) (word : mem q = 8 * next) :
    compactLoop heap t (fuel + 1) q mem = compactLoop heap t fuel next mem := by
  rw [compactLoop, if_pos below, if_pos (by rw [word]; exact isMarked_pointer_word), word]
  simp [decodeAddress]

theorem itemAt_forwarded {size target : Nat} (here : ItemAt heap mem q (.placed size target))
    (moving : target ≠ q) : isMarked (mem q) = true ∧ decodeAddress heap (mem q) = target := by
  have word := here.2.2
  rw [if_pos moving.symm] at word
  simp [decodeAddress, word]

theorem compactLoop_move {size target : Nat} (below : q < t)
    (here : ItemAt heap mem q (.placed size target)) (moving : target ≠ q) :
    compactLoop heap t (fuel + 1) q mem =
      compactLoop heap t fuel (q + size) (move heap.initMark mem ⟨q, size, target⟩) := by
  obtain ⟨marked, address⟩ := itemAt_forwarded here moving
  rw [compactLoop, if_pos below, if_neg (by simp [marked])]
  rw [here.2.1, address]

theorem le_endOfLive (bound : acc ≤ q) : acc ≤ endOfLive items q acc := by
  induction items generalizing q acc with
  | nil => exact le_rfl
  | cons item items ih =>
    cases item with
    | placed size target =>
      have rest : q + size ≤ endOfLive items (q + size) (q + size) := ih le_rfl
      simp only [endOfLive, Item.size, Item.endOfLive]
      omega
    | gap size => exact ih (bound.trans (Nat.le_add_right q size))

theorem moves_eq_nil (reflects : Reflects heap mem q items) (bound : acc ≤ q)
    (past : endOfLive items q acc ≤ q) : moves q items = [] := by
  induction items generalizing q acc with
  | nil => rfl
  | cons item items ih =>
    obtain ⟨here, behind⟩ := reflects
    cases item with
    | placed size target =>
      have large := here.1
      have rest : q + size ≤ endOfLive items (q + size) (q + size) := le_endOfLive le_rfl
      simp only [endOfLive, Item.size, Item.endOfLive] at past
      omega
    | gap size =>
      have further := Nat.le_add_right q size
      exact ih behind (bound.trans further) (le_trans past further)

theorem moves_bounds {m : Move} (reflects : Reflects heap mem q items) (among : m ∈ moves q items) :
    q ≤ m.source ∧ 2 ≤ m.size ∧ m.source + m.size ≤ q + span items := by
  induction items generalizing q with
  | nil => cases among
  | cons item items ih =>
    obtain ⟨here, behind⟩ := reflects
    rw [span_cons]
    cases item with
    | placed size target =>
      rcases mem_cons.mp among with rfl | among
      · exact ⟨le_rfl, here.1, by simp [Item.size]⟩
      · have bounds := ih behind among
        omega
    | gap size =>
      have bounds := ih behind among
      omega

theorem le_source {m : Move} (among : m ∈ moves q items) : q ≤ m.source := by
  induction items generalizing q with
  | nil => cases among
  | cons item items ih =>
    cases item with
    | placed size target =>
      rcases mem_cons.mp among with rfl | among
      · exact le_rfl
      · exact (Nat.le_add_right q size).trans (ih among)
    | gap size => exact (Nat.le_add_right q size).trans (ih among)

theorem moves_ascending : (moves q items).Pairwise fun m m' => m.source + m.size ≤ m'.source := by
  induction items generalizing q with
  | nil => exact .nil
  | cons item items ih =>
    cases item with
    | placed size target => exact .cons (fun m among => le_source among) ih
    | gap size => exact ih

theorem moving_of_idle (idle : moves q items = []) : Moving q items := by
  induction items generalizing q with
  | nil => trivial
  | cons item items ih =>
    cases item with
    | placed size target => cases idle
    | gap size => exact ih idle

theorem fuel_behind {item : Item} (enough : endOfLive (item :: items) q acc - q ≤ fuel + 1)
    (large : 2 ≤ item.size) :
    endOfLive items (q + item.size) (item.endOfLive q acc) - (q + item.size) ≤ fuel := by
  rw [endOfLive] at enough
  omega

theorem reflects_move {size target : Nat}
    (reflects : Reflects heap mem q (.placed size target :: items))
    (downward : Downward (q + size + span items) ⟨q, size, target⟩) :
    Reflects heap (move heap.initMark mem ⟨q, size, target⟩) (q + size) items := by
  have large := reflects.1.1
  refine reflects.2.congr fun a low high => move_outside (by dsimp only; omega) fun writes => ?_
  have range := downward a writes
  simp only [Item.size] at low high range
  omega

theorem compactLoop_moving (reflects : Reflects heap mem q items) (moving : Moving q items)
    (downward : ∀ m ∈ moves q items, Downward (q + span items) m) (bound : acc ≤ q)
    (enough : endOfLive items q acc - q ≤ fuel) :
    compactLoop heap (endOfLive items q acc) fuel q mem =
      .ok (moveAll heap.initMark mem (moves q items)) := by
  induction items generalizing q mem acc fuel with
  | nil => exact compactLoop_done (not_lt.mpr bound)
  | cons item items ih =>
    by_cases below : q < endOfLive (item :: items) q acc
    · obtain ⟨fuel, rfl⟩ : ∃ rest, fuel = rest + 1 := ⟨fuel - 1, by omega⟩
      have here := reflects.1
      rw [span_cons, ← add_assoc] at downward
      cases item with
      | gap size =>
        rw [compactLoop_gap below here.2]
        exact ih reflects.2 moving downward (bound.trans (Nat.le_add_right q size))
          (fuel_behind enough here.1)
      | placed size target =>
        rw [moves, forall_mem_cons] at downward
        rw [compactLoop_move below here moving.1, moves, moveAll_cons]
        exact ih (reflects_move reflects downward.1) moving.2 downward.2 le_rfl
          (fuel_behind enough here.1)
    · rw [compactLoop_done below, moves_eq_nil reflects bound (not_lt.mp below), moveAll_nil]

/-! ### The objects that stay -/

theorem firstDead_le : firstDead items q acc ≤ acc := by
  induction items generalizing q acc with
  | nil => exact le_rfl
  | cons item items ih =>
    cases item with
    | placed size target => exact ih
    | gap size =>
      refine ih.trans ?_
      simp only [Item.firstDead]
      split <;> omega

theorem firstDead_of_le (bound : acc ≤ q) : firstDead items q acc = acc := by
  induction items generalizing q with
  | nil => rfl
  | cons item items ih =>
    have further := bound.trans (Nat.le_add_right q item.size)
    cases item with
    | placed size target => exact ih further
    | gap size =>
      rw [firstDead, Item.firstDead, if_neg (not_lt.mpr bound)]
      exact ih further

/-- Moving an object onto itself rewrites the default mark it already has. -/
theorem move_stay {size : Nat} (here : ItemAt heap mem q (.placed size q)) :
    move heap.initMark mem ⟨q, size, q⟩ = mem := by
  have mark : mem q = heap.initMark mem q := by simpa using here.2.2
  funext a
  by_cases first : a = q
  · subst first
    simp [move, ← mark]
  · by_cases inside : q ≤ a ∧ a < q + size
    · simp [move, first, inside]
    · simp [move, first, inside]

/-- Items that begin with objects that stay, and what follows behind these. -/
structure BehindStay (heap : Heap) (mem : Nat → Nat) (q : Nat) (items : List Item) (stop : Nat)
    (behind : List Item) : Prop where
  above : q ≤ stop
  shape : behind = [] ∨ ∃ size rest, behind = .gap size :: rest
  moving : Moving stop behind
  reflects : Reflects heap mem stop behind
  span : stop + span behind = q + span items
  among : ∀ m ∈ moves stop behind, m ∈ moves q items
  same : moveAll heap.initMark mem (moves q items) = moveAll heap.initMark mem (moves stop behind)
  endOfLive : endOfLive items q q = endOfLive behind stop stop
  firstDead : ∀ acc, firstDead items q acc = firstDead behind stop acc

theorem BehindStay.whole (moving : Moving q items) (reflects : Reflects heap mem q items)
    (shape : items = [] ∨ ∃ size rest, items = .gap size :: rest) :
    BehindStay heap mem q items q items :=
  ⟨le_rfl, shape, moving, reflects, rfl, fun _ among => among, rfl, rfl, fun _ => rfl⟩

theorem Staying.behind (staying : Staying q items) (reflects : Reflects heap mem q items) :
    ∃ stop behind, BehindStay heap mem q items stop behind ∧ ∃ front, items = front ++ behind ∧
      stop = q + span front ∧ ∀ item ∈ front, ∃ size target, item = .placed size target := by
  induction items generalizing q with
  | nil => exact ⟨q, [], .whole trivial reflects (.inl rfl), [], rfl, rfl, by simp⟩
  | cons item items ih =>
    cases item with
    | gap size =>
      exact ⟨q, .gap size :: items, .whole staying reflects (.inr ⟨size, items, rfl⟩), [], rfl, rfl,
        by simp⟩
    | placed size target =>
      obtain ⟨rfl, staying⟩ := staying
      obtain ⟨stop, behind, rest, front, split, last, placed⟩ := ih staying reflects.2
      refine ⟨stop, behind, ⟨?_, rest.shape, rest.moving, rest.reflects, ?_, ?_, ?_,
        rest.endOfLive, rest.firstDead⟩, .placed size target :: front, ?_, ?_, ?_⟩
      · exact (Nat.le_add_right _ size).trans rest.above
      · rw [rest.span, span_cons, ← add_assoc]
        rfl
      · exact fun m among => mem_cons_of_mem _ (rest.among m among)
      · rw [moves, moveAll_cons, move_stay reflects.1]
        exact rest.same
      · rw [split, cons_append]
      · rw [last, span_cons, ← add_assoc]
        rfl
      · exact forall_mem_cons.mpr ⟨⟨size, target, rfl⟩, placed⟩

/-! ### One space -/

/-- The fields of the space `this` say where its items end and where the first gap is. -/
structure Recorded (heap : Heap) (store : Store) (this : SpaceRef) (items : List Item) : Prop where
  endOfLive : store.endOfLive this = endOfLive items (heap.bottom this) (heap.bottom this)
  firstDead : store.firstDead this =
    min (store.endOfLive this) (firstDead items (heap.bottom this) (heap.limit this))

variable {store : Store} {this : SpaceRef}

/-- What the pass does to a space, given the words that the walk ends with. -/
def compacted (store : Store) (this : SpaceRef) (mem : Nat → Nat) : Store :=
  { store with mem := mem, top := Function.update store.top this (store.compactionTop this) }

theorem scanAndCompact_eq {mem : Nat → Nat}
    (walk : compactLoop heap (store.endOfLive this) (store.endOfLive this - heap.bottom this)
      (skipUnmoved heap this store) store.mem = .ok mem) :
    scanAndCompact heap this store = .ok (compacted store this mem) := by
  rw [scanAndCompact, walk]
  rfl

/-- The test for a part at the bottom that stays, which both later passes make. -/
def Unmoved (heap : Heap) (this : SpaceRef) (store : Store) : Prop :=
  heap.bottom this < store.endOfLive this ∧ store.firstDead this > heap.bottom this ∧
    isMarked (store.mem (heap.bottom this)) = false

theorem not_unmoved_of_moving (recorded : Recorded heap store this items)
    (reflects : Reflects heap store.mem (heap.bottom this) items)
    (moving : Moving (heap.bottom this) items) : ¬ Unmoved heap this store := by
  rintro ⟨nonempty, dead, unmarked⟩
  cases items with
  | nil =>
    rw [recorded.endOfLive] at nonempty
    exact absurd nonempty (lt_irrefl _)
  | cons item items =>
    cases item with
    | gap size =>
      have start : firstDead (.gap size :: items) (heap.bottom this) (heap.limit this) ≤
          heap.bottom this := by
        rw [firstDead]
        refine firstDead_le.trans ?_
        rw [Item.firstDead]
        split <;> omega
      rw [recorded.firstDead] at dead
      omega
    | placed size target =>
      have word := reflects.1.2.2
      rw [if_pos moving.1.symm] at word
      rw [word, isMarked_encode] at unmarked
      cases unmarked

theorem skipUnmoved_of_moving (recorded : Recorded heap store this items)
    (reflects : Reflects heap store.mem (heap.bottom this) items)
    (moving : Moving (heap.bottom this) items) : skipUnmoved heap this store = heap.bottom this :=
  if_neg (not_unmoved_of_moving recorded reflects moving)

/-- The end of the live data and the first gap, when the first object stays. -/
theorem unmoved_of_staying {size : Nat} {stop : Nat} {behind : List Item}
    (recorded : Recorded heap store this (.placed size (heap.bottom this) :: items))
    (here : ItemAt heap store.mem (heap.bottom this) (.placed size (heap.bottom this)))
    (rest : BehindStay heap store.mem (heap.bottom this + size) items stop behind)
    (inside : stop + span behind ≤ heap.limit this) :
    store.endOfLive this = endOfLive behind stop stop ∧ store.firstDead this = stop ∧
      Unmoved heap this store := by
  have large := here.1
  have above := rest.above
  have live : store.endOfLive this = endOfLive behind stop stop :=
    recorded.endOfLive.trans rest.endOfLive
  have dead : store.firstDead this =
      min (store.endOfLive this) (firstDead behind stop (heap.limit this)) :=
    recorded.firstDead.trans (congrArg _ (rest.firstDead _))
  have past : stop ≤ store.endOfLive this := live ▸ le_endOfLive le_rfl
  have unmarked : isMarked (store.mem (heap.bottom this)) = false := by
    have word := here.2.2
    rw [if_neg (by simp)] at word
    rw [word]
    exact heap.objects.prototypeHeader_unmarked _
  have stopDead : store.firstDead this = stop := by
    rcases rest.shape with rfl | ⟨gap, others, rfl⟩
    · rw [dead, live]
      simp only [endOfLive, firstDead, span_nil] at inside ⊢
      omega
    · have gapLarge := rest.reflects.1.1
      rw [span_cons, Item.size] at inside
      rw [dead, firstDead, Item.firstDead, if_pos (by omega), firstDead_of_le (by omega)]
      omega
  exact ⟨live, stopDead, by omega, by omega, unmarked⟩

theorem skipUnmoved_of_staying {size : Nat} {stop : Nat} {behind : List Item}
    (recorded : Recorded heap store this (.placed size (heap.bottom this) :: items))
    (here : ItemAt heap store.mem (heap.bottom this) (.placed size (heap.bottom this)))
    (rest : BehindStay heap store.mem (heap.bottom this + size) items stop behind)
    (inside : stop + span behind ≤ heap.limit this) :
    skipUnmoved heap this store = store.endOfLive this ∧ moves stop behind = [] ∨
      ∃ gap others, behind = .gap gap :: others ∧ skipUnmoved heap this store = stop + gap := by
  obtain ⟨live, stopDead, unmoved⟩ := unmoved_of_staying recorded here rest inside
  have skip : skipUnmoved heap this store = if stop = store.endOfLive this then
      store.endOfLive this else decodeAddress heap (store.mem stop) := by
    have passes : skipUnmoved heap this store = if store.firstDead this = store.endOfLive this then
        store.endOfLive this else decodeAddress heap (store.mem (store.firstDead this)) :=
      if_pos unmoved
    rw [passes, stopDead]
  by_cases finished : stop = store.endOfLive this
  · rw [if_pos finished] at skip
    exact .inl ⟨skip, moves_eq_nil rest.reflects le_rfl (by omega)⟩
  · rw [if_neg finished] at skip
    rcases rest.shape with rfl | ⟨gap, others, rfl⟩
    · exact absurd live.symm finished
    · refine .inr ⟨gap, others, rfl, ?_⟩
      rw [skip, rest.reflects.1.2]
      simp [decodeAddress]

theorem scanAndCompact_moves (recorded : Recorded heap store this items)
    (reflects : Reflects heap store.mem (heap.bottom this) items)
    (dense : Dense (heap.bottom this) items)
    (downward : ∀ m ∈ moves (heap.bottom this) items, Downward (heap.bottom this + span items) m)
    (inside : heap.bottom this + span items ≤ heap.limit this) :
    scanAndCompact heap this store = .ok (compacted store this
      (moveAll heap.initMark store.mem (moves (heap.bottom this) items))) := by
  refine scanAndCompact_eq ?_
  have whole : Moving (heap.bottom this) items → compactLoop heap (store.endOfLive this)
      (store.endOfLive this - heap.bottom this) (skipUnmoved heap this store) store.mem =
        .ok (moveAll heap.initMark store.mem (moves (heap.bottom this) items)) := fun moving => by
    rw [skipUnmoved_of_moving recorded reflects moving, recorded.endOfLive]
    exact compactLoop_moving reflects moving downward le_rfl le_rfl
  rcases dense with moving | staying
  · exact whole moving
  · cases items with
    | nil => exact whole trivial
    | cons item items =>
      cases item with
      | gap size => exact whole staying
      | placed size target =>
        obtain ⟨rfl, staying⟩ := staying
        obtain ⟨stop, behind, rest, -⟩ := staying.behind reflects.2
        have ends := rest.span
        rw [span_cons, Item.size, ← add_assoc] at inside downward
        have live : store.endOfLive this = endOfLive behind stop stop :=
          recorded.endOfLive.trans rest.endOfLive
        have same : moveAll heap.initMark store.mem
            (moves (heap.bottom this) (.placed size (heap.bottom this) :: items)) =
              moveAll heap.initMark store.mem (moves stop behind) := by
          rw [moves, moveAll_cons, move_stay reflects.1, rest.same]
        rw [same]
        rcases skipUnmoved_of_staying recorded reflects.1 rest (by omega) with
          ⟨skip, none⟩ | ⟨gap, others, rfl, skip⟩
        · rw [skip, compactLoop_done (lt_irrefl _), none, moveAll_nil]
        · rw [skip, live]
          have above := rest.above
          rw [span_cons, Item.size, ← add_assoc] at ends
          refine compactLoop_moving rest.reflects.2 rest.moving ?_ (Nat.le_add_right stop gap) ?_
          · intro m among
            rw [Item.size, ends]
            exact downward m (mem_cons_of_mem _ (rest.among m among))
          · simp only [endOfLive, Item.size, Item.endOfLive]
            omega

/-! ### All spaces -/

abbrev Plans := List (SpaceRef × List Item)

def planMoves (heap : Heap) (entry : SpaceRef × List Item) : List Move :=
  moves (heap.bottom entry.1) entry.2

def allMoves (heap : Heap) (plans : Plans) : List Move := plans.flatMap (planMoves heap)

/-- The pass will still find the plan of the space in the words, or there is nothing to move. -/
structure Ready (heap : Heap) (store : Store) (entry : SpaceRef × List Item) : Prop where
  recorded : Recorded heap store entry.1 entry.2
  dense : Dense (heap.bottom entry.1) entry.2
  downward : ∀ m ∈ planMoves heap entry, Downward (heap.bottom entry.1 + span entry.2) m
  inside : heap.bottom entry.1 + span entry.2 ≤ heap.limit entry.1
  large : ∀ m ∈ planMoves heap entry, 0 < m.size
  readable : planMoves heap entry = [] ∨ Reflects heap store.mem (heap.bottom entry.1) entry.2

/-- No move of the first space writes into the second one, unless that has nothing to move. -/
def Clear (heap : Heap) (entry entry' : SpaceRef × List Item) : Prop :=
  planMoves heap entry' ≠ [] → ∀ m ∈ planMoves heap entry, ∀ a, m.Writes a →
    a < heap.bottom entry'.1 ∨ heap.limit entry'.1 ≤ a

theorem endOfLive_of_idle (idle : moves q items = []) : endOfLive items q acc = acc := by
  induction items generalizing q with
  | nil => rfl
  | cons item items ih =>
    cases item with
    | placed size target => cases idle
    | gap size => exact ih idle

theorem Ready.compact {entry : SpaceRef × List Item} (ready : Ready heap store entry) :
    scanAndCompact heap entry.1 store = .ok (compacted store entry.1
      (moveAll heap.initMark store.mem (planMoves heap entry))) := by
  rcases ready.readable with idle | reflects
  · refine scanAndCompact_eq ?_
    have live : store.endOfLive entry.1 = heap.bottom entry.1 :=
      ready.recorded.endOfLive.trans (endOfLive_of_idle idle)
    have skip : skipUnmoved heap entry.1 store = heap.bottom entry.1 := by
      refine if_neg ?_
      rintro ⟨nonempty, -⟩
      omega
    rw [skip, live, compactLoop_done (lt_irrefl _), idle, moveAll_nil]
  · exact scanAndCompact_moves ready.recorded reflects ready.dense ready.downward ready.inside

theorem Ready.after {entry entry' : SpaceRef × List Item} (ready' : Ready heap store entry')
    (large : ∀ m ∈ planMoves heap entry, 0 < m.size) (clear : Clear heap entry entry') :
    Ready heap (compacted store entry.1 (moveAll heap.initMark store.mem (planMoves heap entry)))
      entry' := by
  refine ⟨⟨ready'.recorded.endOfLive, ready'.recorded.firstDead⟩, ready'.dense, ready'.downward,
    ready'.inside, ready'.large, ?_⟩
  by_cases idle : planMoves heap entry' = []
  · exact .inl idle
  · have reflects := ready'.readable.resolve_left idle
    refine .inr (reflects.congr fun a low high => moveAll_outside large fun m among writes => ?_)
    have outside := clear idle m among a writes
    have inside := ready'.inside
    omega

theorem compactSpaces_moves {plans : Plans} (ready : ∀ entry ∈ plans, Ready heap store entry)
    (clear : plans.Pairwise (Clear heap)) :
    ∃ done, compactSpaces heap (plans.map Prod.fst) store = .ok done ∧
      done.mem = moveAll heap.initMark store.mem (allMoves heap plans) := by
  induction plans generalizing store with
  | nil => exact ⟨store, rfl, rfl⟩
  | cons entry plans ih =>
    rw [forall_mem_cons] at ready
    rw [pairwise_cons] at clear
    obtain ⟨done, finished, mem⟩ := ih
      (fun entry' among => (ready.2 entry' among).after ready.1.large (clear.1 entry' among)) clear.2
    refine ⟨done, ?_, ?_⟩
    · rw [map_cons, compactSpaces, ready.1.compact]
      exact finished
    · have split : allMoves heap (entry :: plans) = planMoves heap entry ++ allMoves heap plans :=
        flatMap_cons
      rw [mem, split, moveAll_append]
      rfl

end CompactionMoves
