import TransGC.CompactionMoves

/-!
# The pass that adjusts the references

`SCAN_AND_ADJUST_POINTERS` walks over the same items as the compaction pass and replaces every
reference of a live object by the forwarding address that the mark of its target holds. It writes
behind the first two words of an object only, so it changes no mark and no header.
-/
namespace PointerAdjustment
open CompactSpaces MarkWord OrderedMoves ForwardPlan ForwardScan CompactionMoves List

/-- By the header of an object. The class word is not among them: the header is the class. -/
structure OopMaps (objects : ObjectModel) where
  oops : Nat → List Nat
  behindHeader : ∀ header, ∀ k ∈ oops header, 2 ≤ k ∧ k < objects.size header
  nodup : ∀ header, (oops header).Nodup

section Pass

variable (heap : Heap) (maps : OopMaps heap.objects)

/-- Null stays null, and so does a reference to an object that was not forwarded. -/
def adjustPointer (mem : Nat → Nat) (p : Nat) : Nat → Nat :=
  let obj := mem p
  if obj = 0 then mem
  else
    let newObj := decodePointer heap.useBiasedLocking (mem (obj / 8))
    if newObj ≠ 0 then Function.update mem p newObj else mem

def slotsAt (mem : Nat → Nat) (q : Nat) : List Nat := (maps.oops (mem (q + 1))).map (q + ·)

/-- `oopDesc::adjust_pointers`. -/
def adjustPointers (mem : Nat → Nat) (q : Nat) : Nat → Nat :=
  (slotsAt heap maps mem q).foldl (adjustPointer heap) mem

/-- The walk over the objects at the bottom that stay, with the objects it visits. -/
def adjustPrefix (stop : Nat) : Nat → Nat → (Nat → Nat) → Except Fault ((Nat → Nat) × List Nat)
  | 0, q, mem => if q < stop then .error .outOfFuel else .ok (mem, [])
  | fuel + 1, q, mem =>
    if q < stop then
      (adjustPrefix stop fuel (q + heap.sizeAt mem q) (adjustPointers heap maps mem q)).map
        fun (mem, visited) => (mem, q :: visited)
    else .ok (mem, [])

/-- The walk over the rest: by the marks. -/
def adjustLoop (t : Nat) : Nat → Nat → (Nat → Nat) → Except Fault ((Nat → Nat) × List Nat)
  | 0, q, mem => if q < t then .error .outOfFuel else .ok (mem, [])
  | fuel + 1, q, mem =>
    if q < t then
      if isMarked (mem q) then
        (adjustLoop t fuel (q + heap.sizeAt mem q) (adjustPointers heap maps mem q)).map
          fun (mem, visited) => (mem, q :: visited)
      else adjustLoop t fuel (decodeAddress heap (mem q)) mem
    else .ok (mem, [])

/-- `SCAN_AND_ADJUST_POINTERS` for the space `this`, with the visited objects. -/
def scanAndAdjustPointers (this : SpaceRef) (store : Store) : Except Fault (Store × List Nat) :=
  let q := heap.bottom this
  let t := store.endOfLive this
  let fuel := t - q
  let stop := store.firstDead this
  if store.top this - q = 0 then .ok (store, [])
  else if q < t ∧ stop > q ∧ isMarked (store.mem q) = false then
    (adjustPrefix heap maps stop fuel q store.mem).bind fun (mem, front) =>
      let q := if stop = t then t else decodeAddress heap (mem stop)
      (adjustLoop heap maps t fuel q mem).map fun (mem, back) =>
        ({ store with mem := mem }, front ++ back)
  else
    (adjustLoop heap maps t fuel q store.mem).map fun (mem, visited) =>
      ({ store with mem := mem }, visited)

end Pass

variable {heap : Heap} {maps : OopMaps heap.objects} {mem : Nat → Nat} {q t acc fuel : Nat}
  {items : List Item}

/-! ### One reference, and a list of them -/

/-- What becomes of a reference, by the words of the heap. -/
def adjusted (heap : Heap) (mem : Nat → Nat) (obj : Nat) : Nat :=
  if obj = 0 ∨ decodePointer heap.useBiasedLocking (mem (obj / 8)) = 0 then obj
  else decodePointer heap.useBiasedLocking (mem (obj / 8))

theorem adjustPointer_self (mem : Nat → Nat) (p : Nat) :
    adjustPointer heap mem p p = adjusted heap mem (mem p) := by
  unfold adjustPointer adjusted
  by_cases null : mem p = 0
  · simp [null]
  · by_cases unmoved : decodePointer heap.useBiasedLocking (mem (mem p / 8)) = 0
    · simp [unmoved]
    · simp [null, unmoved]

theorem adjustPointer_of_ne (mem : Nat → Nat) {p a : Nat} (apart : a ≠ p) :
    adjustPointer heap mem p a = mem a := by
  unfold adjustPointer
  dsimp only
  split
  · rfl
  · split
    · exact Function.update_of_ne apart _ _
    · rfl

theorem foldl_adjust_outside {ps : List Nat} {a : Nat} (outside : a ∉ ps) :
    ps.foldl (adjustPointer heap) mem a = mem a := by
  induction ps generalizing mem with
  | nil => rfl
  | cons p ps ih =>
    rw [mem_cons, not_or] at outside
    rw [foldl_cons, ih outside.2]
    exact adjustPointer_of_ne mem outside.1

/-- A reference whose target's mark is not adjusted gets its value from the words before. -/
theorem foldl_adjust_slot {ps : List Nat} {p : Nat} (distinct : ps.Nodup) (among : p ∈ ps)
    (unread : mem p / 8 ∉ ps) :
    ps.foldl (adjustPointer heap) mem p = adjusted heap mem (mem p) := by
  induction ps generalizing mem with
  | nil => cases among
  | cons first ps ih =>
    rw [nodup_cons] at distinct
    rw [mem_cons, not_or] at unread
    rw [foldl_cons]
    rcases mem_cons.mp among with rfl | among
    · rw [foldl_adjust_outside distinct.1]
      exact adjustPointer_self mem p
    · have apart : p ≠ first := fun same => distinct.1 (same ▸ among)
      have value : adjustPointer heap mem first p = mem p := adjustPointer_of_ne mem apart
      have mark : adjustPointer heap mem first (mem p / 8) = mem (mem p / 8) :=
        adjustPointer_of_ne mem unread.1
      rw [ih distinct.2 among (by rw [value]; exact unread.2), value, adjusted, adjusted, mark]

/-! ### The references of one object -/

theorem slotsAt_bounds {p : Nat} (among : p ∈ slotsAt heap maps mem q) :
    q + 2 ≤ p ∧ p < q + heap.sizeAt mem q := by
  obtain ⟨k, listed, rfl⟩ := mem_map.mp among
  have bounds := maps.behindHeader _ k listed
  exact ⟨by omega, Nat.add_lt_add_left bounds.2 q⟩

theorem slotsAt_nodup : (slotsAt heap maps mem q).Nodup := by
  apply Nodup.map _ (maps.nodup _)
  intro k k' same
  exact Nat.add_left_cancel same

theorem adjustPointers_outside {a : Nat} (outside : a < q + 2 ∨ q + heap.sizeAt mem q ≤ a) :
    adjustPointers heap maps mem q a = mem a := by
  apply foldl_adjust_outside
  intro among
  have bounds := slotsAt_bounds among
  omega

/-! ### The references of the placed items -/

def itemSlots (heap : Heap) (maps : OopMaps heap.objects) (mem : Nat → Nat) (q : Nat)
    (items : List Item) : List Nat :=
  (moves q items).flatMap fun m => slotsAt heap maps mem m.source

theorem sizeAt_of_move {m : Move} (reflects : Reflects heap mem q items)
    (among : m ∈ moves q items) : heap.sizeAt mem m.source = m.size := by
  induction items generalizing q with
  | nil => cases among
  | cons item items ih =>
    obtain ⟨here, behind⟩ := reflects
    cases item with
    | gap size => exact ih behind among
    | placed size target =>
      rcases mem_cons.mp among with rfl | among
      · exact here.2.1
      · exact ih behind among

theorem itemSlots_congr {mem' : Nat → Nat} (same : ∀ a, q ≤ a → mem' a = mem a) :
    itemSlots heap maps mem' q items = itemSlots heap maps mem q items := by
  apply flatMap_congr
  intro m among
  have low := le_source among
  rw [slotsAt, slotsAt, same (m.source + 1) (by omega)]

/-- Adjusting the first object and then the items behind it adjusts all of them. -/
theorem adjust_placed {size target : Nat} (here : ItemAt heap mem q (.placed size target)) :
    (itemSlots heap maps (adjustPointers heap maps mem q) (q + size) items).foldl
        (adjustPointer heap) (adjustPointers heap maps mem q) =
      (itemSlots heap maps mem q (.placed size target :: items)).foldl (adjustPointer heap) mem := by
  have same : ∀ a, q + size ≤ a → adjustPointers heap maps mem q a = mem a := by
    intro a above
    apply adjustPointers_outside
    rw [here.2.1]
    exact .inr above
  rw [itemSlots_congr same]
  simp only [itemSlots, moves, flatMap_cons, foldl_append]
  rfl

theorem reflects_behind {size target : Nat}
    (reflects : Reflects heap mem q (.placed size target :: items)) :
    Reflects heap (adjustPointers heap maps mem q) (q + size) items := by
  obtain ⟨here, behind⟩ := reflects
  apply behind.congr
  intro a low _
  apply adjustPointers_outside
  rw [here.2.1]
  exact .inr low

theorem adjustLoop_done (above : ¬ q < t) : adjustLoop heap maps t fuel q mem = .ok (mem, []) := by
  cases fuel with
  | zero => exact if_neg above
  | succ fuel => exact if_neg above

theorem adjustLoop_moving (reflects : Reflects heap mem q items) (moving : Moving q items)
    (bound : acc ≤ q) (enough : endOfLive items q acc - q ≤ fuel) :
    adjustLoop heap maps (endOfLive items q acc) fuel q mem =
      .ok ((itemSlots heap maps mem q items).foldl (adjustPointer heap) mem,
        (moves q items).map Move.source) := by
  induction items generalizing q mem acc fuel with
  | nil => exact adjustLoop_done (not_lt.mpr bound)
  | cons item items ih =>
    by_cases below : q < endOfLive (item :: items) q acc
    · obtain ⟨fuel, rfl⟩ : ∃ rest, fuel = rest + 1 := ⟨fuel - 1, by omega⟩
      cases item with
      | gap size =>
        obtain ⟨here, behind⟩ := reflects
        have further := bound.trans (Nat.le_add_right q size)
        have jump : adjustLoop heap maps (endOfLive (.gap size :: items) q acc) (fuel + 1) q mem =
            adjustLoop heap maps (endOfLive items (q + size) acc) fuel (q + size) mem := by
          rw [adjustLoop, if_pos below, if_neg (by simp [here.2]), here.2]
          simp [decodeAddress, endOfLive, Item.endOfLive, Item.size]
        exact jump.trans (ih behind moving further (fuel_behind enough here.1))
      | placed size target =>
        have here := reflects.1
        have rest := @ih (adjustPointers heap maps mem q) (q + size) (q + size) fuel
          (reflects_behind reflects) moving.2 le_rfl (fuel_behind enough here.1)
        rw [adjustLoop, if_pos below, if_pos (itemAt_forwarded here moving.1).1, here.2.1]
        simp only [endOfLive, Item.size, Item.endOfLive]
        rw [rest, adjust_placed here]
        rfl
    · have none := moves_eq_nil reflects bound (not_lt.mp below)
      rw [adjustLoop_done below, itemSlots, none]
      rfl

theorem adjustPrefix_placed {stop : Nat} (reflects : Reflects heap mem q items)
    (placed : ∀ item ∈ items, ∃ size target, item = .placed size target)
    (ends : q + span items = stop) (enough : span items ≤ fuel) :
    adjustPrefix heap maps stop fuel q mem =
      .ok ((itemSlots heap maps mem q items).foldl (adjustPointer heap) mem,
        (moves q items).map Move.source) := by
  induction items generalizing q mem fuel with
  | nil =>
    have reached : ¬ q < stop := ends ▸ lt_irrefl q
    cases fuel with
    | zero => exact if_neg reached
    | succ fuel => exact if_neg reached
  | cons item items ih =>
    rw [forall_mem_cons] at placed
    obtain ⟨⟨size, target, rfl⟩, others⟩ := placed
    have here := reflects.1
    have large := here.1
    rw [span_cons, Item.size] at ends enough
    obtain ⟨fuel, rfl⟩ : ∃ rest, fuel = rest + 1 := ⟨fuel - 1, by omega⟩
    have rest := @ih (adjustPointers heap maps mem q) (q + size) fuel (reflects_behind reflects) others
      (by omega) (by omega)
    rw [adjustPrefix, if_pos (by omega), here.2.1, rest, adjust_placed here]
    rfl

/-! ### The pass over one space -/

theorem moves_append (front behind : List Item) (q : Nat) :
    moves q (front ++ behind) = moves q front ++ moves (q + span front) behind := by
  induction front generalizing q with
  | nil => rfl
  | cons item front ih =>
    have further : q + span (item :: front) = q + item.size + span front := by
      rw [span_cons, Nat.add_assoc]
    cases item with
    | placed | gap =>
      rw [cons_append, moves, moves, ih, further]
      rfl

theorem Reflects.front {front behind : List Item} (reflects : Reflects heap mem q (front ++ behind)) :
    Reflects heap mem q front := by
  induction front generalizing q with
  | nil => trivial
  | cons item front ih => exact ⟨reflects.1, ih reflects.2⟩

/-- No word of a later item is among the references of the items before it. -/
theorem itemSlots_below {a : Nat} (reflects : Reflects heap mem q items)
    (above : q + span items ≤ a) : a ∉ itemSlots heap maps mem q items := by
  intro among
  obtain ⟨m, moved, slot⟩ := mem_flatMap.mp among
  have bounds := moves_bounds reflects moved
  have range := slotsAt_bounds slot
  rw [sizeAt_of_move reflects moved] at range
  omega

variable {store : Store} {this : SpaceRef}

/-- What the pass gives when all references of the items are adjusted in one visit each. -/
def adjustedItems (heap : Heap) (maps : OopMaps heap.objects) (q : Nat) (items : List Item)
    (mem : Nat → Nat) : (Nat → Nat) × List Nat :=
  ((itemSlots heap maps mem q items).foldl (adjustPointer heap) mem, (moves q items).map Move.source)

/-- The references of the items in front and of those behind are adjusted one after the other. -/
theorem adjustedItems_append {front behind : List Item} (reflects : Reflects heap mem q front) :
    adjustedItems heap maps q (front ++ behind) mem =
      ((adjustedItems heap maps (q + span front) behind (adjustedItems heap maps q front mem).1).1,
        (adjustedItems heap maps q front mem).2 ++ (adjustedItems heap maps (q + span front) behind
          (adjustedItems heap maps q front mem).1).2) := by
  have same : ∀ a, q + span front ≤ a → (adjustedItems heap maps q front mem).1 a = mem a :=
    fun a above => foldl_adjust_outside (itemSlots_below reflects above)
  have slots : itemSlots heap maps mem q (front ++ behind) = itemSlots heap maps mem q front ++
      itemSlots heap maps (adjustedItems heap maps q front mem).1 (q + span front) behind := by
    rw [itemSlots_congr same, itemSlots, moves_append, flatMap_append]
    rfl
  simp only [adjustedItems, moves_append, map_append]
  rw [slots, foldl_append]
  rfl

theorem adjusts_moving (used : ¬ store.top this - heap.bottom this = 0)
    (recorded : Recorded heap store this items)
    (reflects : Reflects heap store.mem (heap.bottom this) items)
    (moving : Moving (heap.bottom this) items) :
    scanAndAdjustPointers heap maps this store =
      .ok ({ store with mem := (adjustedItems heap maps (heap.bottom this) items store.mem).1 },
        (adjustedItems heap maps (heap.bottom this) items store.mem).2) := by
  have stays := not_unmoved_of_moving recorded reflects moving
  have loop : adjustLoop heap maps (store.endOfLive this)
      (store.endOfLive this - heap.bottom this) (heap.bottom this) store.mem =
        .ok (adjustedItems heap maps (heap.bottom this) items store.mem) := by
    rw [recorded.endOfLive]
    exact adjustLoop_moving reflects moving le_rfl le_rfl
  unfold Unmoved at stays
  unfold scanAndAdjustPointers
  rw [if_neg used, if_neg stays, loop]
  rfl

/-- Behind the objects that stay the walk goes on by the marks. -/
theorem adjustLoop_behind {stop : Nat} {behind : List Item}
    (shape : behind = [] ∨ ∃ size rest, behind = .gap size :: rest)
    (reflects : Reflects heap mem stop behind) (moving : Moving stop behind)
    (enough : endOfLive behind stop stop - stop ≤ fuel) :
    adjustLoop heap maps (endOfLive behind stop stop) fuel
      (if stop = endOfLive behind stop stop then endOfLive behind stop stop
        else decodeAddress heap (mem stop)) mem = .ok (adjustedItems heap maps stop behind mem) := by
  by_cases finished : stop = endOfLive behind stop stop
  · rw [if_pos finished, adjustLoop_done (lt_irrefl _), adjustedItems, itemSlots,
      moves_eq_nil reflects le_rfl finished.ge]
    rfl
  · rw [if_neg finished]
    rcases shape with rfl | ⟨size, rest, rfl⟩
    · exact absurd rfl finished
    · have next : decodeAddress heap (mem stop) = stop + size := by
        rw [reflects.1.2]
        simp [decodeAddress]
      rw [next]
      apply adjustLoop_moving reflects.2 moving (Nat.le_add_right stop size)
      exact (Nat.sub_le_sub_left (Nat.le_add_right stop size) _).trans enough

/-- The first object stays: the part in front of the first gap is walked by the sizes. -/
theorem adjusts_staying {size : Nat} (used : ¬ store.top this - heap.bottom this = 0)
    (recorded : Recorded heap store this (.placed size (heap.bottom this) :: items))
    (reflects : Reflects heap store.mem (heap.bottom this) (.placed size (heap.bottom this) :: items))
    (staying : Staying (heap.bottom this + size) items)
    (inside : heap.bottom this + size + span items ≤ heap.limit this) :
    scanAndAdjustPointers heap maps this store =
      .ok ({ store with mem := (adjustedItems heap maps (heap.bottom this)
          (.placed size (heap.bottom this) :: items) store.mem).1 },
        (adjustedItems heap maps (heap.bottom this) (.placed size (heap.bottom this) :: items)
          store.mem).2) := by
  obtain ⟨stop, behind, rest, front, rfl, last, placed⟩ := staying.behind reflects.2
  obtain ⟨live, stopDead, unmoved⟩ :=
    unmoved_of_staying recorded reflects.1 rest (rest.span ▸ inside)
  have past : stop ≤ endOfLive behind stop stop := le_endOfLive le_rfl
  have whole : heap.bottom this + span (.placed size (heap.bottom this) :: front) = stop := by
    rw [span_cons, Item.size, ← Nat.add_assoc, last]
  have reflectsFront : Reflects heap store.mem (heap.bottom this)
      (.placed size (heap.bottom this) :: front) := Reflects.front reflects
  generalize lead : Item.placed size (heap.bottom this) :: front = leading at whole reflectsFront
  have placedLead : ∀ item ∈ leading, ∃ size target, item = .placed size target :=
    lead ▸ forall_mem_cons.mpr ⟨⟨size, _, rfl⟩, placed⟩
  have split : Item.placed size (heap.bottom this) :: (front ++ behind) = leading ++ behind := by
    rw [← lead]
    rfl
  have fuel : span leading ≤ endOfLive behind stop stop - heap.bottom this := by omega
  have low : heap.bottom this ≤ stop := by omega
  -- the walk by the sizes ends at the first gap and changes nothing behind it
  have walk : adjustPrefix heap maps stop (endOfLive behind stop stop - heap.bottom this)
      (heap.bottom this) store.mem = .ok (adjustedItems heap maps (heap.bottom this) leading store.mem) :=
    adjustPrefix_placed reflectsFront placedLead whole fuel
  have reflectsBehind : Reflects heap
      (adjustedItems heap maps (heap.bottom this) leading store.mem).1 stop behind := by
    apply rest.reflects.congr
    intro a above _
    exact foldl_adjust_outside (itemSlots_below reflectsFront (whole ▸ above))
  have further := @adjustLoop_behind heap maps _ _ _ _ rest.shape reflectsBehind rest.moving
    (Nat.sub_le_sub_left low (endOfLive behind stop stop))
  unfold Unmoved at unmoved
  unfold scanAndAdjustPointers
  rw [if_neg used, if_pos unmoved, stopDead, live, walk]
  dsimp only [Except.bind]
  rw [further, split, adjustedItems_append reflectsFront, whole]
  rfl

theorem itemAt_large {item : Item} (here : ItemAt heap mem q item) : 2 ≤ item.size := by
  cases item with
  | placed size target => exact here.1
  | gap size => exact here.1

/-- The pass over one space visits each object of the plan once and adjusts its references. -/
theorem scanAndAdjustPointers_items (recorded : Recorded heap store this items)
    (reflects : Reflects heap store.mem (heap.bottom this) items)
    (dense : Dense (heap.bottom this) items)
    (inside : heap.bottom this + span items ≤ heap.limit this)
    (top : store.top this = heap.bottom this + span items) :
    scanAndAdjustPointers heap maps this store =
      .ok ({ store with mem := (adjustedItems heap maps (heap.bottom this) items store.mem).1 },
        (adjustedItems heap maps (heap.bottom this) items store.mem).2) := by
  cases items with
  | nil => exact if_pos (by rw [top, span_nil, Nat.add_zero, Nat.sub_self])
  | cons item items =>
    rw [span_cons] at top inside
    have used : ¬ store.top this - heap.bottom this = 0 := by
      have large := itemAt_large reflects.1
      omega
    rcases dense with moving | staying
    · exact adjusts_moving used recorded reflects moving
    · cases item with
      | gap size => exact adjusts_moving used recorded reflects staying
      | placed size target =>
        obtain ⟨rfl, staying⟩ := staying
        rw [Item.size, ← Nat.add_assoc] at inside
        exact adjusts_staying used recorded reflects staying inside

end PointerAdjustment
