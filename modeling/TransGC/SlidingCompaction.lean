import TransGC.MarkCompact
import TransGC.PointerAdjustment
import TransGC.SlidePlan

/-!
# A space compacted into itself

The three passes over one space that is its own destination: forward, adjust, compact. The plan
that the first pass leaves in the marks is still readable after the second one.
-/
namespace SlidingCompaction
open CompactSpaces MarkWord OrderedMoves ForwardPlan ForwardScan ForwardFits CompactionMoves List
  PointerAdjustment SlidePlan

/-! ### The objects that the compaction pass visits -/

/-- The walk by the sizes over the objects that stay; only a debug build makes it. -/
def staticVisits (heap : Heap) (mem : Nat → Nat) (stop : Nat) : Nat → Nat → List Nat
  | 0, _ => []
  | fuel + 1, q =>
    if q < stop then q :: staticVisits heap mem stop fuel (q + heap.sizeAt mem q) else []

/-- The objects that the loop of `SCAN_AND_COMPACT` copies, in the order of the copies. -/
def compactLoopVisits (heap : Heap) (t : Nat) : Nat → Nat → (Nat → Nat) → List Nat
  | 0, _, _ => []
  | fuel + 1, q, mem =>
    if q < t then
      if isMarked (mem q) = false then compactLoopVisits heap t fuel (decodeAddress heap (mem q)) mem
      else
        let size := heap.sizeAt mem q
        let compactionTop := decodeAddress heap (mem q)
        q :: compactLoopVisits heap t fuel (q + size)
          (move heap.initMark mem ⟨q, size, compactionTop⟩)
    else []

def compactVisits (heap : Heap) (debug : Bool) (this : SpaceRef) (store : Store) : List Nat :=
  let q := heap.bottom this
  let t := store.endOfLive this
  let front :=
    if debug ∧ q < t ∧ store.firstDead this > q ∧ isMarked (store.mem q) = false then
      staticVisits heap store.mem (store.firstDead this) (t - q) q
    else []
  front ++ compactLoopVisits heap t (t - q) (skipUnmoved heap this store) store.mem

variable {heap : Heap} {maps : OopMaps heap.objects} {mem : Nat → Nat} {q t acc fuel k last : Nat}
  {items : List Item} {store : Store} {this : SpaceRef} {ms : List Move} {m : Move}

theorem compactLoopVisits_done (above : ¬ q < t) : compactLoopVisits heap t fuel q mem = [] := by
  cases fuel with
  | zero => rfl
  | succ fuel => exact if_neg above

theorem compactLoopVisits_moving (reflects : Reflects heap mem q items) (moving : Moving q items)
    (downward : ∀ m ∈ moves q items, Downward (q + span items) m) (bound : acc ≤ q)
    (enough : endOfLive items q acc - q ≤ fuel) :
    compactLoopVisits heap (endOfLive items q acc) fuel q mem =
      (moves q items).map Move.source := by
  induction items generalizing q mem acc fuel with
  | nil => exact compactLoopVisits_done (not_lt.mpr bound)
  | cons item items ih =>
    by_cases below : q < endOfLive (item :: items) q acc
    · obtain ⟨fuel, rfl⟩ : ∃ rest, fuel = rest + 1 := ⟨fuel - 1, by omega⟩
      have here := reflects.1
      rw [span_cons, ← Nat.add_assoc] at downward
      cases item with
      | gap size =>
        have jump : compactLoopVisits heap (endOfLive (.gap size :: items) q acc) (fuel + 1) q mem =
            compactLoopVisits heap (endOfLive items (q + size) acc) fuel (q + size) mem := by
          rw [compactLoopVisits, if_pos below, if_pos (by rw [here.2]; exact isMarked_pointer_word),
            here.2]
          simp [decodeAddress, endOfLive, Item.endOfLive, Item.size]
        rw [jump]
        exact ih reflects.2 moving downward (bound.trans (Nat.le_add_right q size))
          (fuel_behind enough here.1)
      | placed size target =>
        rw [moves, forall_mem_cons] at downward
        obtain ⟨marked, address⟩ := itemAt_forwarded here moving.1
        have rest := ih (reflects_move reflects downward.1) moving.2 downward.2 le_rfl
          (fuel_behind enough here.1)
        rw [compactLoopVisits, if_pos below, if_neg (by simp [marked])]
        rw [here.2.1, address, moves, map_cons]
        exact congrArg (q :: ·) rest
    · rw [compactLoopVisits_done below, moves_eq_nil reflects bound (not_lt.mp below)]
      rfl

theorem staticVisits_placed {stop : Nat} (reflects : Reflects heap mem q items)
    (placed : ∀ item ∈ items, ∃ size target, item = .placed size target)
    (ends : q + span items = stop) (enough : span items ≤ fuel) :
    staticVisits heap mem stop fuel q = (moves q items).map Move.source := by
  induction items generalizing q fuel with
  | nil =>
    have reached : ¬ q < stop := ends ▸ lt_irrefl q
    cases fuel with
    | zero => rfl
    | succ fuel => exact if_neg reached
  | cons item items ih =>
    rw [forall_mem_cons] at placed
    obtain ⟨⟨size, target, rfl⟩, others⟩ := placed
    have here := reflects.1
    have large := here.1
    rw [span_cons, Item.size] at ends enough
    obtain ⟨fuel, rfl⟩ : ∃ rest, fuel = rest + 1 := ⟨fuel - 1, by omega⟩
    have behind : Reflects heap mem (q + size) items := reflects.2
    rw [staticVisits, if_pos (by omega), here.2.1, ih behind others (by omega) (by omega)]
    rfl

theorem moving_ne (moving : Moving q items) : ∀ m ∈ moves q items, m.target ≠ m.source := by
  induction items generalizing q with
  | nil =>
    intro m among
    cases among
  | cons item items ih =>
    cases item with
    | gap size => exact ih moving
    | placed size target => exact forall_mem_cons.mpr ⟨moving.1, ih moving.2⟩

theorem staying_eq {front behind : List Item} (staying : Staying q (front ++ behind))
    (placed : ∀ item ∈ front, ∃ size target, item = .placed size target) :
    ∀ m ∈ moves q front, m.target = m.source := by
  induction front generalizing q with
  | nil =>
    intro m among
    cases among
  | cons item front ih =>
    rw [forall_mem_cons] at placed
    obtain ⟨⟨size, target, rfl⟩, others⟩ := placed
    exact forall_mem_cons.mpr ⟨staying.1, ih staying.2 others⟩

/-- The objects of a build's visits: those that move and, in a debug build, all of them. -/
def visited (debug : Bool) (ms : List Move) : List Nat :=
  (ms.filter fun m => debug || m.target != m.source).map Move.source

theorem visited_moving (debug : Bool) (moving : Moving q items) :
    visited debug (moves q items) = (moves q items).map Move.source := by
  have all : ∀ m ∈ moves q items, (debug || m.target != m.source) = true := by
    intro m among
    simp [moving_ne moving m among]
  rw [visited, filter_eq_self.mpr all]

theorem visited_staying (debug : Bool) (stays : ∀ m ∈ ms, m.target = m.source) :
    visited debug ms = if debug then ms.map Move.source else [] := by
  cases debug with
  | true => simp [visited]
  | false =>
    have none : ∀ m ∈ ms, ¬ (false || m.target != m.source) = true := by
      intro m among
      simp [stays m among]
    rw [visited, filter_eq_nil_iff.mpr none]
    rfl

theorem compactVisits_moving (debug : Bool) (recorded : Recorded heap store this items)
    (reflects : Reflects heap store.mem (heap.bottom this) items)
    (moving : Moving (heap.bottom this) items)
    (downward : ∀ m ∈ moves (heap.bottom this) items, Downward (heap.bottom this + span items) m) :
    compactVisits heap debug this store = visited debug (moves (heap.bottom this) items) := by
  have stays := not_unmoved_of_moving recorded reflects moving
  unfold compactVisits
  dsimp only
  rw [if_neg (fun both => stays both.2), skipUnmoved_of_moving recorded reflects moving,
    recorded.endOfLive, compactLoopVisits_moving reflects moving downward le_rfl le_rfl,
    visited_moving debug moving, nil_append]

theorem compactVisits_staying (debug : Bool) {size : Nat}
    (recorded : Recorded heap store this (.placed size (heap.bottom this) :: items))
    (reflects : Reflects heap store.mem (heap.bottom this) (.placed size (heap.bottom this) :: items))
    (staying : Staying (heap.bottom this) (.placed size (heap.bottom this) :: items))
    (downward : ∀ m ∈ moves (heap.bottom this + size) items,
      Downward (heap.bottom this + size + span items) m)
    (inside : heap.bottom this + size + span items ≤ heap.limit this) :
    compactVisits heap debug this store =
      visited debug (moves (heap.bottom this) (.placed size (heap.bottom this) :: items)) := by
  obtain ⟨stop, behind, rest, front, rfl, last, placed⟩ := staying.2.behind reflects.2
  obtain ⟨live, stopDead, unmoved⟩ :=
    unmoved_of_staying recorded reflects.1 rest (rest.span ▸ inside)
  have past : stop ≤ endOfLive behind stop stop := le_endOfLive le_rfl
  -- the objects that stay
  have whole : heap.bottom this + span (.placed size (heap.bottom this) :: front) = stop := by
    rw [span_cons, Item.size, ← Nat.add_assoc, last]
  have placedLead : ∀ item ∈ Item.placed size (heap.bottom this) :: front,
      ∃ size target, item = .placed size target :=
    forall_mem_cons.mpr ⟨⟨size, _, rfl⟩, placed⟩
  have reflectsLead : Reflects heap store.mem (heap.bottom this)
      (.placed size (heap.bottom this) :: front) := Reflects.front reflects
  have lead : staticVisits heap store.mem stop (store.endOfLive this - heap.bottom this)
      (heap.bottom this) =
        (moves (heap.bottom this) (.placed size (heap.bottom this) :: front)).map Move.source :=
    staticVisits_placed reflectsLead placedLead whole (by omega)
  -- the objects that move
  have loop : compactLoopVisits heap (store.endOfLive this)
      (store.endOfLive this - heap.bottom this) (skipUnmoved heap this store) store.mem =
        (moves stop behind).map Move.source := by
    rcases skipUnmoved_of_staying recorded reflects.1 rest (rest.span ▸ inside) with
      ⟨skip, none⟩ | ⟨gap, others, rfl, skip⟩
    · rw [skip, compactLoopVisits_done (lt_irrefl _), none]
      rfl
    · have ends := rest.span
      rw [span_cons, Item.size, ← Nat.add_assoc] at ends
      rw [skip, live]
      apply compactLoopVisits_moving rest.reflects.2 rest.moving _ (Nat.le_add_right stop gap)
      · simp only [endOfLive, Item.size, Item.endOfLive]
        omega
      · intro m among
        rw [Item.size, ends]
        exact downward m (rest.among m among)
  have split : moves (heap.bottom this) (.placed size (heap.bottom this) :: (front ++ behind)) =
      moves (heap.bottom this) (.placed size (heap.bottom this) :: front) ++ moves stop behind := by
    rw [← cons_append, moves_append, whole]
  have halves : ∀ ms ms', visited debug (ms ++ ms') = visited debug ms ++ visited debug ms' := by
    intro ms ms'
    rw [visited, filter_append, map_append]
    rfl
  rw [split, halves, visited_moving debug rest.moving,
    visited_staying debug (@staying_eq _ _ behind staying placedLead)]
  rw [Unmoved, stopDead] at unmoved
  unfold compactVisits
  dsimp only
  rw [loop, stopDead, lead]
  cases debug with
  | true => rw [if_pos ⟨rfl, unmoved⟩, if_pos rfl]
  | false => rw [if_neg (by simp), if_neg Bool.false_ne_true]

/-- The objects that move; a debug build also walks over those at the bottom that stay. -/
theorem compactVisits_items (debug : Bool) (recorded : Recorded heap store this items)
    (reflects : Reflects heap store.mem (heap.bottom this) items)
    (dense : Dense (heap.bottom this) items)
    (downward : ∀ m ∈ moves (heap.bottom this) items, Downward (heap.bottom this + span items) m)
    (inside : heap.bottom this + span items ≤ heap.limit this) :
    compactVisits heap debug this store = visited debug (moves (heap.bottom this) items) := by
  rcases dense with moving | staying
  · exact compactVisits_moving debug recorded reflects moving downward
  · cases items with
    | nil => exact compactVisits_moving debug recorded reflects trivial downward
    | cons item items =>
      cases item with
      | gap size => exact compactVisits_moving debug recorded reflects staying downward
      | placed size target =>
        obtain ⟨rfl, behind⟩ := staying
        rw [span_cons, Item.size, ← Nat.add_assoc] at inside downward
        apply compactVisits_staying debug recorded reflects ⟨rfl, behind⟩ _ inside
        intro m among
        exact downward m (mem_cons_of_mem _ among)

/-! ### The plan after the references are adjusted -/

theorem adjustedItems_below {a : Nat} (below : a < q + 2) :
    (adjustedItems heap maps q items mem).1 a = mem a := by
  apply foldl_adjust_outside
  intro among
  obtain ⟨m, moved, slot⟩ := mem_flatMap.mp among
  have low := le_source moved
  have range := slotsAt_bounds slot
  omega

theorem reflects_adjusted (reflects : Reflects heap mem q items) :
    Reflects heap (adjustedItems heap maps q items mem).1 q items := by
  induction items generalizing q mem with
  | nil => trivial
  | cons item items ih =>
    cases item with
    | gap size =>
      obtain ⟨here, behind⟩ := reflects
      have word : (adjustedItems heap maps q (.gap size :: items) mem).1 q = mem q :=
        adjustedItems_below (by omega)
      exact ⟨⟨here.1, word.trans here.2⟩, ih behind⟩
    | placed size target =>
      have here := reflects.1
      have rest := ih (@reflects_behind heap maps mem q items size target reflects)
      have both : (adjustedItems heap maps (q + size) items (adjustPointers heap maps mem q)).1 =
          (adjustedItems heap maps q (.placed size target :: items) mem).1 := adjust_placed here
      rw [both] at rest
      exact ⟨here.congr (adjustedItems_below (by omega)) fun _ _ _ => adjustedItems_below (by omega),
        rest⟩

/-! ### The references of a placed object -/

theorem itemSlots_nodup (reflects : Reflects heap mem q items) :
    (itemSlots heap maps mem q items).Nodup := by
  rw [itemSlots, nodup_flatMap]
  refine ⟨fun m _ => slotsAt_nodup, ?_⟩
  apply moves_ascending.imp_of_mem
  intro m m' among among' order p slot slot'
  have range := slotsAt_bounds slot
  have range' := slotsAt_bounds slot'
  rw [sizeAt_of_move reflects among] at range
  omega

/-- Two placed objects are the same, or one ends before the other starts. -/
theorem moves_apart {m' : Move} (among : m ∈ moves q items) (among' : m' ∈ moves q items) :
    m = m' ∨ m.source + m.size ≤ m'.source ∨ m'.source + m'.size ≤ m.source := by
  have ordered : (moves q items).Pairwise fun m m' =>
      m = m' ∨ m.source + m.size ≤ m'.source ∨ m'.source + m'.size ≤ m.source :=
    moves_ascending.imp fun before => .inr (.inl before)
  have symmetric : Std.Symm fun m m' : Move =>
      m = m' ∨ m.source + m.size ≤ m'.source ∨ m'.source + m'.size ≤ m.source :=
    ⟨fun _ _ apart => apart.elim (fun same => .inl same.symm) fun order => .inr order.symm⟩
  exact ordered.forall_of_forall (fun _ _ => .inl rfl) among among'

theorem mem_itemSlots_iff (reflects : Reflects heap mem q items) (among : m ∈ moves q items)
    (inside : k < m.size) :
    m.source + k ∈ itemSlots heap maps mem q items ↔ k ∈ maps.oops (mem (m.source + 1)) := by
  constructor
  · intro listed
    obtain ⟨m', moved, slot⟩ := mem_flatMap.mp listed
    have range := slotsAt_bounds slot
    rw [sizeAt_of_move reflects moved] at range
    rcases moves_apart among moved with rfl | apart
    · obtain ⟨k', offset, same⟩ := mem_map.mp slot
      obtain rfl : k' = k := Nat.add_left_cancel same
      exact offset
    · omega
  · intro offset
    exact mem_flatMap.mpr ⟨m, among, mem_map.mpr ⟨k, offset, rfl⟩⟩

def PlainPrototypes (heap : Heap) : Prop :=
  ∀ header, heap.objects.prototypeHeader header = prototype ∨
    heap.useBiasedLocking = true ∧ hasBiasPattern (heap.objects.prototypeHeader header) = true

theorem decode_prototypeHeader (prototypes : PlainPrototypes heap) (header : Nat) :
    decodePointer heap.useBiasedLocking (heap.objects.prototypeHeader header) = 0 := by
  rcases prototypes header with plain | ⟨biased, pattern⟩
  · simp [plain, decodePointer, prototype, hasBiasPattern, clearLockBits]
  · simp [decodePointer, biased, pattern]

theorem mark_of_move (reflects : Reflects heap mem q items) (among : m ∈ moves q items) :
    mem m.source = if m.source ≠ m.target then encodePointerAsMark (8 * m.target)
      else heap.initMark mem m.source := by
  induction items generalizing q with
  | nil => cases among
  | cons item items ih =>
    cases item with
    | gap size => exact ih reflects.2 among
    | placed size target =>
      rcases mem_cons.mp among with rfl | among
      · exact reflects.1.2.2
      · exact ih reflects.2 among

theorem adjusted_of_move (prototypes : PlainPrototypes heap)
    (reflects : Reflects heap mem q items) (among : m ∈ moves q items)
    (down : m.target ≤ m.source) (positive : 0 < m.target) :
    adjusted heap mem (8 * m.source) = 8 * m.target := by
  have address : 8 * m.source / 8 = m.source := Nat.mul_div_cancel_left m.source (by decide)
  have word := mark_of_move reflects among
  by_cases stays : m.source = m.target
  · rw [if_neg (by simpa using stays)] at word
    have plain : decodePointer heap.useBiasedLocking (mem m.source) = 0 := by
      rw [word]
      exact decode_prototypeHeader prototypes _
    rw [adjusted, address, if_pos (.inr plain), stays]
  · rw [if_pos stays] at word
    rw [adjusted, address, word, decode_encode, if_neg (by omega)]

/-! ### The three passes -/

/-- What becomes of the words of a live object behind its mark. -/
structure Carried (heap : Heap) (maps : OopMaps heap.objects) (this : SpaceRef) (store done : Store)
    (ms : List Move) (m : Move) : Prop where
  word : ∀ k, 0 < k → k < m.size → k ∉ maps.oops (store.mem (m.source + 1)) →
    done.mem (m.target + k) = store.mem (m.source + k)
  /-- A reference to an object of the space. -/
  inner : ∀ k ∈ maps.oops (store.mem (m.source + 1)), ∀ m' ∈ ms,
    store.mem (m.source + k) = 8 * m'.source → done.mem (m.target + k) = 8 * m'.target
  /-- A reference to another space, or null. -/
  outer : ∀ k ∈ maps.oops (store.mem (m.source + 1)),
    store.mem (m.source + k) / 8 < heap.bottom this ∨ store.top this ≤ store.mem (m.source + k) / 8 →
    done.mem (m.target + k) = adjusted heap store.mem (store.mem (m.source + k))

/-- The placed objects `ms` of the space, and where they are afterwards. -/
structure Slides (heap : Heap) (maps : OopMaps heap.objects) (this : SpaceRef) (store done : Store)
    (ms : List Move) : Prop where
  live : ∀ object ∈ liveAt (heap.bottom this) (spaceRuns heap store this),
    ∃ m ∈ ms, m.source = object.1 ∧ m.size = object.2
  kept : ∀ m ∈ ms, (m.source, m.size) ∈ liveAt (heap.bottom this) (spaceRuns heap store this) ∨
    m.target = m.source
  ascending : ms.Pairwise fun m m' => m.source + m.size ≤ m'.source
  down : ∀ m ∈ ms, m.target ≤ m.source
  packed : Packed (heap.bottom this) ms (done.top this)
  tiled : Tiled heap done.mem (heap.bottom this) (done.top this)
  carried : ∀ m ∈ ms, (m.source, m.size) ∈ liveAt (heap.bottom this) (spaceRuns heap store this) →
    Carried heap maps this store done ms m
  frame : ∀ a, a < heap.bottom this ∨ store.top this ≤ a → done.mem a = store.mem a

theorem tiled_of_packed {first : Nat} (packed : Packed first ms last)
    (sizes : ∀ m ∈ ms, heap.sizeAt mem m.target = m.size) : Tiled heap mem first last := by
  induction ms generalizing first with
  | nil =>
    obtain rfl : first = last := packed
    exact .done first
  | cons m ms ih =>
    rw [forall_mem_cons] at sizes
    obtain ⟨rfl, rest⟩ := packed
    apply Tiled.object
    rw [sizes.1]
    exact ih rest sizes.2

/-- Sliding down in address order, no move writes where a later one reads or writes. -/
theorem slide_before {first : Nat} (packed : Packed first ms last)
    (ascending : ms.Pairwise fun m m' => m.source + m.size ≤ m'.source)
    (down : ∀ m ∈ ms, m.target ≤ m.source) : ms.Pairwise Before := by
  have both := ascending.and (packed_ascending packed)
  apply both.imp_of_mem
  rintro m m' among - ⟨sources, targets⟩ a ⟨low, high⟩
  have lower := down m among
  constructor
  · rintro ⟨first, -⟩
    omega
  · rintro ⟨first, -⟩
    omega

section Passes

variable {forwarded done : Store} {allowed : Nat}

/-- The words of the space after all three passes. -/
def slidWords (heap : Heap) (maps : OopMaps heap.objects) (q : Nat) (items : List Item)
    (mem : Nat → Nat) : Nat → Nat :=
  moveAll heap.initMark (adjustedItems heap maps q items mem).1 (moves q items)

section

variable (reflects : Reflects heap mem q items)
include reflects

section Arrival

variable (packed : Packed q (moves q items) last)
  (down : ∀ m ∈ moves q items, m.target ≤ m.source) (among : m ∈ moves q items)
include packed down among

theorem slidWords_arrive (positive : 0 < k) (inside : k < m.size) :
    slidWords heap maps q items mem (m.target + k) =
      (adjustedItems heap maps q items mem).1 (m.source + k) := by
  apply moveAll_delivers _ (slide_before packed moves_ascending down) among positive inside
  intro m' among'
  have large := (moves_bounds reflects among').2.1
  omega

theorem slidWords_plain
    (positive : 0 < k) (inside : k < m.size) (plain : k ∉ maps.oops (mem (m.source + 1))) :
    slidWords heap maps q items mem (m.target + k) = mem (m.source + k) := by
  rw [slidWords_arrive reflects packed down among positive inside]
  apply foldl_adjust_outside
  rwa [mem_itemSlots_iff reflects among inside]

theorem slidWords_slot (slot : k ∈ maps.oops (mem (m.source + 1)))
    (unread : mem (m.source + k) / 8 ∉ itemSlots heap maps mem q items) :
    slidWords heap maps q items mem (m.target + k) = adjusted heap mem (mem (m.source + k)) := by
  have bounds := maps.behindHeader _ k slot
  have inside : k < m.size := sizeAt_of_move reflects among ▸ bounds.2
  rw [slidWords_arrive reflects packed down among (by omega) inside]
  exact foldl_adjust_slot (itemSlots_nodup reflects)
    ((mem_itemSlots_iff reflects among inside).mpr slot) unread

end Arrival

theorem itemSlots_range {p : Nat} (among : p ∈ itemSlots heap maps mem q items) :
    q ≤ p ∧ p < q + span items := by
  obtain ⟨m, moved, slot⟩ := mem_flatMap.mp among
  have bounds := moves_bounds reflects moved
  have range := slotsAt_bounds slot
  rw [sizeAt_of_move reflects moved] at range
  omega

theorem mark_not_slot (among : m ∈ moves q items) : m.source ∉ itemSlots heap maps mem q items := by
  have large := (moves_bounds reflects among).2.1
  intro listed
  have offset := (mem_itemSlots_iff reflects among (by omega : 0 < m.size)).mp listed
  have bounds := maps.behindHeader _ 0 offset
  omega

omit reflects in
theorem carried_of_slide (prototypes : PlainPrototypes heap) (positive : 0 < heap.bottom this)
    (space : SpaceDone heap store this items forwarded)
    (frame : ∀ a, a < heap.bottom this ∨ store.top this ≤ a → forwarded.mem a = store.mem a)
    (packed : Packed (heap.bottom this) (moves (heap.bottom this) items) last)
    (down : ∀ m ∈ moves (heap.bottom this) items, m.target ≤ m.source)
    (words : done.mem = slidWords heap maps (heap.bottom this) items forwarded.mem)
    (among : m ∈ moves (heap.bottom this) items)
    (live : (m.source, m.size) ∈ liveAt (heap.bottom this) (spaceRuns heap store this)) :
    Carried heap maps this store done (moves (heap.bottom this) items) m := by
  have reflects := space.reflects
  have large := (moves_bounds reflects among).2.1
  have length := sizeAt_of_move reflects among
  have same : ∀ k, 0 < k → k < m.size → forwarded.mem (m.source + k) = store.mem (m.source + k) :=
    fun k low high => space.words _ live _ (Nat.lt_add_of_pos_right low) (Nat.add_lt_add_left high _)
  have header := same 1 (by omega) (by omega)
  have offset : ∀ {k}, k ∈ maps.oops (store.mem (m.source + 1)) → 0 < k ∧ k < m.size := by
    intro k slot
    rw [← header] at slot
    have bounds := maps.behindHeader _ k slot
    exact ⟨by omega, length ▸ bounds.2⟩
  refine ⟨fun k low high plain => ?_, fun k slot m' among' reference => ?_,
    fun k slot elsewhere => ?_⟩
  · rw [words, slidWords_plain reflects packed down among low high (by rwa [header]),
      same k low high]
  · have value := same k (offset slot).1 (offset slot).2
    have target := (packed_le packed).2 m' among'
    rw [reference] at value
    have unread : forwarded.mem (m.source + k) / 8 ∉
        itemSlots heap maps forwarded.mem (heap.bottom this) items := by
      rw [value, Nat.mul_div_cancel_left _ (by decide)]
      exact mark_not_slot reflects among'
    rw [words, slidWords_slot reflects packed down among (by rwa [header]) unread, value]
    exact adjusted_of_move prototypes reflects among' (down m' among') (by omega)
  · have value := same k (offset slot).1 (offset slot).2
    have unread : forwarded.mem (m.source + k) / 8 ∉
        itemSlots heap maps forwarded.mem (heap.bottom this) items := by
      intro listed
      have range := itemSlots_range reflects listed
      rw [space.stop, value] at range
      omega
    rw [words, slidWords_slot reflects packed down among (by rwa [header]) unread, value, adjusted,
      adjusted, frame _ elsewhere]

theorem slidWords_outside {a : Nat} (packed : Packed q (moves q items) last)
    (within : last ≤ q + span items) (outside : a < q ∨ q + span items ≤ a) :
    slidWords heap maps q items mem a = mem a := by
  have unmoved : slidWords heap maps q items mem a = (adjustedItems heap maps q items mem).1 a := by
    apply moveAll_outside
    · intro m among
      have large := (moves_bounds reflects among).2.1
      omega
    · rintro m among ⟨low, high⟩
      have bounds := (packed_le packed).2 m among
      omega
  rw [unmoved]
  apply foldl_adjust_outside
  intro listed
  have range := itemSlots_range reflects listed
  omega

end

theorem placedSize_le_span (items : List Item) : placedSize items ≤ span items := by
  induction items with
  | nil => exact le_rfl
  | cons item items ih =>
    cases item with
    | placed size target => exact Nat.add_le_add_left ih size
    | gap size => exact ih.trans (Nat.le_add_left _ _)

variable (valid : Valid heap this)
  (tiled : Tiled heap store.mem (heap.bottom this) (store.top this))
  (below : store.top this ≤ heap.limit this)

include tiled in
theorem slideSpace_dense (allowed : Nat) :
    Dense (heap.bottom this) (slideSpace heap store this allowed) :=
  .inr (slide_staying (runs_facts tiled le_rfl).1)

include tiled below in
theorem slideSpace_live (allowed : Nat) {object : Nat × Nat}
    (live : object ∈ liveAt (heap.bottom this) (spaceRuns heap store this)) :
    ∃ m ∈ moves (heap.bottom this) (slideSpace heap store this allowed),
      m.source = object.1 ∧ m.size = object.2 := by
  obtain ⟨target, among⟩ := MarkCompact.move_of_live (plan_slideSpace tiled below allowed) live
  exact ⟨_, among, rfl, rfl⟩

theorem slideSpace_downward (allowed t : Nat) :
    ∀ m ∈ moves (heap.bottom this) (slideSpace heap store this allowed), Downward t m := by
  rintro m among a ⟨-, high⟩
  have lower := slide_down le_rfl m among
  exact .inl (by omega)

include tiled below in
theorem slides_of_words (maps : OopMaps heap.objects) (positive : 0 < heap.bottom this)
    (prototypes : PlainPrototypes heap)
    (space : SpaceDone heap store this (slideSpace heap store this allowed) forwarded)
    (frame : ∀ a, a < heap.bottom this ∨ store.top this ≤ a → forwarded.mem a = store.mem a)
    (words : done.mem = slidWords heap maps (heap.bottom this) (slideSpace heap store this allowed)
      forwarded.mem)
    (top : done.top this = heap.bottom this + placedSize (slideSpace heap store this allowed)) :
    Slides heap maps this store done
      (moves (heap.bottom this) (slideSpace heap store this allowed)) := by
  have packed : Packed (heap.bottom this)
      (moves (heap.bottom this) (slideSpace heap store this allowed)) (done.top this) := by
    rw [top]
    exact slide_packed _ _ _ _
  have down : ∀ m ∈ moves (heap.bottom this) (slideSpace heap store this allowed),
      m.target ≤ m.source := slide_down le_rfl
  have reflects := space.reflects
  refine ⟨fun object => slideSpace_live tiled below allowed, slide_placed le_rfl, moves_ascending,
    down, packed, ?_, fun m among => carried_of_slide prototypes positive space frame packed down
      words among, ?_⟩
  · apply tiled_of_packed packed
    intro m among
    have large := (moves_bounds reflects among).2.1
    have header : done.mem (m.target + 1) = (adjustedItems heap maps (heap.bottom this)
        (slideSpace heap store this allowed) forwarded.mem).1 (m.source + 1) := by
      rw [words]
      exact slidWords_arrive reflects packed down among Nat.one_pos (by omega)
    rw [Heap.sizeAt, header]
    exact sizeAt_of_move (reflects_adjusted reflects) among
  · intro a outside
    have within : done.top this ≤ heap.bottom this + span (slideSpace heap store this allowed) := by
      rw [top]
      exact Nat.add_le_add_left (placedSize_le_span _) _
    rw [words, slidWords_outside reflects packed within (by rwa [space.stop]), frame a outside]

include valid tiled below in
/-- The three passes over a space that is its own destination end; they slide the live objects and
the kept fillers down without a gap, in order, and set the top behind the last one. Each placed
object is forwarded once and adjusted once. The third pass copies once each object that moves; over
those that stay it walks in a debug build only. -/
theorem space_slides_into_itself (maps : OopMaps heap.objects) (allowed : Nat)
    (positive : 0 < heap.bottom this) (prototypes : PlainPrototypes heap) :
    ∃ ms forwarded adjusted done,
      scanAndForwardWithin heap this allowed store = .ok (forwarded, this) ∧
      scanAndAdjustPointers heap maps this forwarded = .ok (adjusted, ms.map Move.source) ∧
      scanAndCompact heap this adjusted = .ok done ∧
      Slides heap maps this store done ms ∧
      forwardCalls heap (store.top this) (store.top this - heap.bottom this) (heap.bottom this)
        (startScan heap this allowed store) = ms.map Move.source ∧
      compactVisits heap true this adjusted = ms.map Move.source ∧
      compactVisits heap false this adjusted =
        (ms.filter fun m => m.target != m.source).map Move.source := by
  obtain ⟨forwarded, forwards, top, space, frame, tops⟩ :=
    scanAndForwardWithin_done valid tiled below allowed
  have recorded : Recorded heap forwarded this (slideSpace heap store this allowed) :=
    ⟨space.endOfLive, space.firstDead⟩
  have dense : Dense (heap.bottom this) (slideSpace heap store this allowed) :=
    slideSpace_dense tiled allowed
  have inside : heap.bottom this + span (slideSpace heap store this allowed) ≤ heap.limit this := by
    rw [space.stop]
    exact below
  have downward := @slideSpace_downward heap store this allowed
    (heap.bottom this + span (slideSpace heap store this allowed))
  have adjusts : scanAndAdjustPointers heap maps this forwarded = .ok (_, _) :=
    scanAndAdjustPointers_items recorded space.reflects dense inside (by rw [tops, space.stop])
  -- the second pass changes words only, and none of the plan
  have readable : Reflects heap (adjustedItems heap maps (heap.bottom this)
      (slideSpace heap store this allowed) forwarded.mem).1 (heap.bottom this)
      (slideSpace heap store this allowed) := reflects_adjusted space.reflects
  have still : Recorded heap { forwarded with mem := (adjustedItems heap maps (heap.bottom this)
      (slideSpace heap store this allowed) forwarded.mem).1 } this
      (slideSpace heap store this allowed) := ⟨space.endOfLive, space.firstDead⟩
  have compacts := scanAndCompact_moves still readable dense downward inside
  refine ⟨moves (heap.bottom this) (slideSpace heap store this allowed), forwarded, _, _, forwards,
    adjusts, compacts, ?_, forwardCalls_slideSpace valid tiled below allowed, ?_, ?_⟩
  · apply slides_of_words tiled below maps positive prototypes space frame rfl
    exact (Function.update_self _ _ _).trans top
  · rw [compactVisits_items true still readable dense downward inside]
    simp [visited]
  · rw [compactVisits_items false still readable dense downward inside]
    simp [visited]

end Passes

/-! ### A space with two live objects -/

/-- Only Tenured has room; a header is the number of words behind the first two. -/
def slidingHeap : Heap where
  objects := plainObjects
  bottom := fun _ => 8
  limit := fun _ => 24
  transEdens := 0
  survivors := 0
  useBiasedLocking := false
  markSweepDeadRatio := 0
  markSweepAlwaysCompactCount := 1
  invocations := 0

/-- Objects with one word behind the header hold a reference there. -/
def slidingMaps : OopMaps slidingHeap.objects where
  oops header := if header = 1 then [2] else []
  behindHeader header k listed := by
    split at listed
    · rename_i one
      obtain rfl := mem_singleton.mp listed
      subst one
      decide
    · cases listed
  nodup header := by
    split
    · decide
    · exact nodup_nil

/-- A dead object, a live one, a dead one and a live one; the live ones refer to each other. -/
def slidingStore : Store where
  mem
    | 8 => 1
    | 9 => 1
    | 11 => 3
    | 12 => 1
    | 13 => 128
    | 14 => 1
    | 16 => 3
    | 17 => 1
    | 18 => 88
    | _ => 0
  top _ := 19
  compactionTop _ := 0
  firstDead _ := 0
  endOfLive _ := 0

theorem slidingStore_tiled : Tiled slidingHeap slidingStore.mem 8 19 :=
  .object (.object (.object (.object (.done 19))))

/-- Both objects end up at the bottom, still referring to each other. -/
theorem two_objects_slide_down :
    ∃ ms forwarded adjusted done,
      scanAndForwardWithin slidingHeap ⟨.tenured, 0⟩ 0 slidingStore =
        .ok (forwarded, ⟨.tenured, 0⟩) ∧
      scanAndAdjustPointers slidingHeap slidingMaps ⟨.tenured, 0⟩ forwarded =
        .ok (adjusted, ms.map Move.source) ∧
      scanAndCompact slidingHeap ⟨.tenured, 0⟩ adjusted = .ok done ∧
      Slides slidingHeap slidingMaps ⟨.tenured, 0⟩ slidingStore done ms := by
  obtain ⟨ms, forwarded, adjusted, done, forwards, adjusts, compacts, slides, -⟩ :=
    space_slides_into_itself (show Valid slidingHeap ⟨.tenured, 0⟩ from Nat.one_pos)
      slidingStore_tiled (by decide) slidingMaps 0 (by decide) fun _ => .inl rfl
  exact ⟨ms, forwarded, adjusted, done, forwards, adjusts, compacts, slides⟩

end SlidingCompaction
