import Mathlib.Logic.Function.Iterate
import Mathlib.Logic.Relation
import TransGC.ScanSteps
import TransGC.YoungScavenge

/-!
# What a scavenge can do to the heap

As long as no promotion fails, the closures of a scavenge make a few kinds of steps: an object of
eden or from-space is copied to to-space or to Tenured, a slot is redirected to the copy, a weak
slot is cleared, a reference goes on a discovered list or leaves it, a saved mark advances. `Valid`
relates the heap in any later state to the heap at the start.

A copy in to-space lies in gen0 like the objects that are still to be copied, so a slot must not be
scanned twice. Steps name the slots they may write, which lie in objects below the saved marks.
-/
namespace ScavengeSteps
open EdenTable MarkWord ObjectHeap ObjectMoves YoungScavenge Function List

/-- The objects that a scavenge leaves where they are. -/
def outside (young : YoungHeap) : List Nat :=
  young.edenObjects ++ (young.room .tenured).objects ++ young.perm

/-- The spaces lie where the collector takes them to be, each object is listed once, nothing in gen0
is marked, a slot into gen0 points to an object in eden or from-space, and a class lists each of its
reference fields once. -/
structure WellFormed (c : Scavenger) (young : YoungHeap) : Prop where
  nonNull : 0 < c.start .gen0
  gen1Below : c.start .gen1 ≤ c.start .old
  toAbove : c.start .gen0 ≤ (young.room .toSpace).bottom
  toBelow : (young.room .toSpace).limit ≤ c.start .gen1
  oldAbove : c.start .old ≤ (young.room .tenured).top
  permAbove : (young.room .tenured).limit ≤ c.start .perm
  topInside : ∀ d, (young.room d).bottom ≤ (young.room d).top ∧
    (young.room d).top ≤ (young.room d).limit
  sources : ∀ a ∈ young.sources, c.inGen0 a = true ∧
    (a < (young.room .toSpace).bottom ∨ (young.room .toSpace).limit ≤ a)
  survivors : ∀ a ∈ (young.room .toSpace).objects,
    (young.room .toSpace).bottom ≤ a ∧ a < (young.room .toSpace).top
  edens : ∀ a ∈ young.edenObjects, c.start .gen1 ≤ a ∧ a < c.start .old
  tenured : ∀ a ∈ (young.room .tenured).objects,
    c.start .old ≤ a ∧ a < (young.room .tenured).top
  perm : ∀ a ∈ young.perm, c.start .perm ≤ a
  distinct : (outside young).Nodup
  sized : ∀ a ∈ young.sources, 0 < (young.klass a).size
  unmarked : ∀ a ∈ young.sources, young.isForwarded a = false
  pointers : ∀ s, ScanSteps.HasSlot c.toCollector young.heap s →
    c.inGen0 (young.words s) = true → young.words s ∈ young.sources
  oopMaps : ∀ a ∈ ScanSteps.allObjects young.heap, (young.klass a).slots.Nodup

/-- Those outside the heap, of objects outside gen0 and of copies below the saved marks. -/
def Visible (σ : Scan) : Slot → Prop
  | .field obj _ => obj ∈ σ.edenObjects ∨ obj ∈ σ.perm ∨
      ∃ d, obj ∈ (σ.room d).objects.take (σ.savedMark d)
  | _ => True

def IsSlot (σ : Scan) : Slot → Prop
  | .field obj offset => offset ∈ (σ.klass obj).slots
  | _ => True

/-- Not scanned, or there was nothing to do: what it points to in gen0 is not a copy. -/
def Unscanned (c : Scavenger) (start : YoungHeap) (σ : Scan) (s : Slot) : Prop :=
  c.inGen0 (σ.words s) = true → σ.words s ∈ start.sources

/-- A weak handle, or the referent of a reference in to-space that is cleared when nothing else
reaches it. -/
def Clearable (c : Scavenger) (σ : Scan) : Slot → Prop
  | .root _ => False
  | .weakRoot _ => True
  | .field r offset => offset = referentOffset ∧ r ∈ (σ.room .toSpace).objects ∧
      σ.words (.field r nextOffset) = 0 ∧ ((σ.klass r).reference = some .weak ∨
        (σ.klass r).reference = some .soft ∧ c.shouldClear r = true)

structure Listed (c : Scavenger) (σ : Scan) (kind : ReferenceType) (r : Nat) : Prop where
  survivor : r ∈ (σ.room .toSpace).objects.take (σ.savedMark .toSpace)
  ofKind : (σ.klass r).reference = some kind
  active : σ.words (.field r nextOffset) = 0
  policy : kind = .soft → c.shouldClear r = true
  typed : kind ≠ .other

inductive LoopStep where
  | advance
  | stopDiscovery
  deriving DecidableEq

/-- It writes only slots in `touch` and makes only the given loop steps. -/
inductive Step (c : Scavenger) (start : YoungHeap) (touch : Slot → Prop) (loops : List LoopStep) :
    Scan → Scan → Prop
  | copy {σ : Scan} {d : Destination} {a : Nat} (among : a ∈ start.sources)
      (white : σ.isForwarded a = false) (room : fits σ d a = true) :
      Step c start touch loops σ (evacuate σ d a)
  | redirect {σ : Scan} {s : Slot} (touched : touch s) (visible : Visible σ s) (slot : IsSlot σ s)
      (among : σ.words s ∈ start.sources) (black : σ.isForwarded (σ.words s) = true) :
      Step c start touch loops σ (σ.store s (c.forwardee σ.toYoungHeap (σ.words s)))
  | clear {σ : Scan} {s : Slot} (touched : touch s) (visible : Visible σ s) (slot : IsSlot σ s)
      (late : σ.discovering = false) (weak : Clearable c σ s)
      (dead : σ.words s = 0 ∨ σ.words s ∈ start.sources ∧ σ.isForwarded (σ.words s) = false) :
      Step c start touch loops σ (σ.store s 0)
  | discover {σ : Scan} {kind : ReferenceType} {r : Nat} (early : σ.discovering = true)
      (listed : Listed c σ kind r) (new : r ∉ σ.discovered kind) :
      Step c start touch loops σ (σ.addDiscovered kind r)
  | remove {σ : Scan} {kind : ReferenceType} {r : Nat} (touched : touch (.field r referentOffset)) :
      Step c start touch loops σ (σ.removeDiscovered kind r)
  | card {σ : Scan} (cards : Region → Nat → Card) :
      Step c start touch loops σ { σ with cards := cards }
  | advance {σ : Scan} {d : Destination} (allowed : .advance ∈ loops)
      (bound : σ.savedMark d < (σ.room d).objects.length) :
      Step c start touch loops σ (σ.advance d)
  | stopDiscovery {σ : Scan} (allowed : .stopDiscovery ∈ loops) :
      Step c start touch loops σ { σ with discovering := false }

def Steps (c : Scavenger) (start : YoungHeap) (touch : Slot → Prop) (loops : List LoopStep) :
    Scan → Scan → Prop :=
  Relation.ReflTransGen (Step c start touch loops)

/-- An object, the space it was copied to and the address of the copy. -/
structure Move where
  source : Nat
  dest : Destination
  target : Nat

/-- The mark of a copy. -/
def agedMark : Destination → Nat → Nat
  | .toSpace, mark => if hasDisplacedMark mark then mark else MarkWord.incrAge mark
  | .tenured, mark => mark

def Carries (moved : List Move) (before after : Nat) : Prop :=
  after = before ∨ ∃ m ∈ moved, m.source = before ∧ m.target = after

/-- The slot of the copy that is cleared when nothing else reaches its target. -/
def ClearableCopy (c : Scavenger) (start : YoungHeap) (m : Move) (offset : Nat) : Prop :=
  offset = referentOffset ∧ m.dest = .toSpace ∧ start.words (.field m.source nextOffset) = 0 ∧
    ((start.klass m.source).reference = some .weak ∨
      (start.klass m.source).reference = some .soft ∧ c.shouldClear m.target = true)

/-- A slot that is neither in an object of gen0 nor in a copy. -/
def Outer (start : YoungHeap) : Slot → Prop
  | .field obj _ => obj ∈ outside start
  | _ => True

/-- The objects that no copy is laid over. -/
def Stays (start : YoungHeap) (a : Nat) : Prop := a ∈ start.sources ∨ a ∈ outside start

/-- How the heap is related to the heap at the start. -/
structure Valid (c : Scavenger) (start young : YoungHeap) (moved : List Move) : Prop extends
    Image Move.source Move.target (fun m => agedMark m.dest) (· ∈ start.sources) (Stays start)
      (Carries moved) (fun s => ∃ i, s = .weakRoot i) (ClearableCopy c start) start.toMemory
      young.toMemory moved where
  eden : young.eden = start.eden
  fromSpace : young.fromSpace = start.fromSpace
  transNew : young.transNew = start.transNew
  perm : young.perm = start.perm
  span : ∀ d, (young.room d).bottom = (start.room d).bottom ∧
    (young.room d).limit = (start.room d).limit
  top : ∀ d, (start.room d).top ≤ (young.room d).top ∧ (young.room d).top ≤ (start.room d).limit
  objects : ∀ d, (young.room d).objects =
    (start.room d).objects ++ (moved.filter fun m => m.dest = d).map Move.target
  fresh : ∀ m ∈ moved, (start.room m.dest).top ≤ m.target ∧ m.target < (young.room m.dest).top
  extent : ∀ m ∈ moved, m.target + (start.klass m.source).size ≤ (young.room m.dest).top
  forwarded : ∀ a ∈ start.sources, young.isForwarded a = true → ∃ m ∈ moved, m.source = a
  sourceWords : ∀ a ∈ start.sources, ∀ offset,
    young.words (.field a offset) = start.words (.field a offset)
  displaced : ∀ header, ∃ n, young.displaced header = MarkWord.incrAge^[n] (start.displaced header)

theorem Outer.inPlace {start : YoungHeap} {s : Slot} (outer : Outer start s) :
    InPlace (Stays start) s := by
  cases s with
  | field obj offset => exact .inr outer
  | _ => trivial

variable {c : Scavenger} {start young : YoungHeap} {touch : Slot → Prop} {loops : List LoopStep}
  {σ τ : Scan} {a b obj : Nat} {d e : Destination} {s : Slot} {m : Move} {moved : List Move}

/-! ### Where things lie -/

/-- The part of the address space that belongs to a destination. -/
def InRoom (c : Scavenger) (start : YoungHeap) : Destination → Nat → Prop
  | .toSpace, a => (start.room .toSpace).bottom ≤ a ∧ a < (start.room .toSpace).limit
  | .tenured, a => c.start .old ≤ a ∧ a < (start.room .tenured).limit

theorem inGen0_iff : c.inGen0 a = true ↔ c.start .gen0 ≤ a ∧ a < c.start .gen1 := by
  simp [Scavenger.inGen0]

variable (formed : WellFormed c start)
include formed

theorem WellFormed.source_ne_zero (among : a ∈ start.sources) : a ≠ 0 := by
  have nonNull := formed.nonNull
  have inside := inGen0_iff.mp (formed.sources a among).1
  omega

theorem WellFormed.source_not_inRoom (among : a ∈ start.sources) : ¬ InRoom c start d a := by
  obtain ⟨inside, apart⟩ := formed.sources a among
  have young := inGen0_iff.mp inside
  have gen1 := formed.gen1Below
  cases d with
  | toSpace | tenured =>
    rintro ⟨low, high⟩
    omega

theorem WellFormed.eden_not_inRoom (among : a ∈ start.edenObjects) : ¬ InRoom c start d a := by
  have place := formed.edens a among
  have below := formed.toBelow
  cases d with
  | toSpace | tenured =>
    rintro ⟨low, high⟩
    omega

theorem WellFormed.perm_not_inRoom (among : a ∈ start.perm) : ¬ InRoom c start d a := by
  have place := formed.perm a among
  have above := formed.permAbove
  have below := formed.toBelow
  have gen1 := formed.gen1Below
  have old := formed.oldAbove
  have inside := (formed.topInside .tenured).2
  cases d with
  | toSpace | tenured =>
    rintro ⟨low, high⟩
    omega

theorem WellFormed.inRoom_unique (here : InRoom c start d a) (there : InRoom c start e a) :
    d = e := by
  have below := formed.toBelow
  have gen1 := formed.gen1Below
  cases d <;> cases e
  · rfl
  · obtain ⟨-, low⟩ := here
    obtain ⟨high, -⟩ := there
    omega
  · obtain ⟨-, low⟩ := there
    obtain ⟨high, -⟩ := here
    omega
  · rfl

theorem WellFormed.room_inRoom (low : (start.room d).top ≤ a) (high : a < (start.room d).limit) :
    InRoom c start d a := by
  have bottom := (formed.topInside d).1
  have old := formed.oldAbove
  cases d with
  | toSpace => exact ⟨by omega, high⟩
  | tenured => exact ⟨by omega, high⟩

theorem WellFormed.objects_inRoom (among : a ∈ (start.room d).objects) :
    InRoom c start d a ∧ a < (start.room d).top := by
  have inside := (formed.topInside d).2
  cases d with
  | toSpace =>
    have place := formed.survivors a among
    exact ⟨⟨place.1, by omega⟩, place.2⟩
  | tenured =>
    have place := formed.tenured a among
    exact ⟨⟨place.1, by omega⟩, place.2⟩

theorem WellFormed.outside_not_inGen0 (among : a ∈ outside start) : ¬ c.inGen0 a = true := by
  intro inside
  have young := inGen0_iff.mp inside
  have gen1 := formed.gen1Below
  have old := formed.oldAbove
  have inside := (formed.topInside .tenured).2
  have perm := formed.permAbove
  simp only [outside, mem_append] at among
  rcases among with (eden | tenured) | permanent
  · have := formed.edens a eden
    omega
  · have := formed.tenured a tenured
    omega
  · have := formed.perm a permanent
    omega

theorem WellFormed.outside_not_source (among : a ∈ outside start) : a ∉ start.sources :=
  fun source => formed.outside_not_inGen0 among (formed.sources a source).1

theorem Valid.target_inRoom (valid : Valid c start young moved) (listed : m ∈ moved) :
    InRoom c start m.dest m.target := by
  obtain ⟨low, high⟩ := valid.fresh m listed
  exact formed.room_inRoom low (lt_of_lt_of_le high (valid.top m.dest).2)

theorem Valid.objects_inRoom (valid : Valid c start young moved)
    (among : a ∈ (young.room d).objects) : InRoom c start d a ∧ a < (young.room d).top := by
  rw [valid.objects d] at among
  rcases mem_append.mp among with old | copy
  · obtain ⟨inside, below⟩ := formed.objects_inRoom old
    exact ⟨inside, lt_of_lt_of_le below (valid.top d).1⟩
  · obtain ⟨m, filtered, rfl⟩ := mem_map.mp copy
    obtain ⟨listed, dest⟩ := mem_filter.mp filtered
    obtain rfl : m.dest = d := by simpa using dest
    exact ⟨valid.target_inRoom formed listed, (valid.fresh m listed).2⟩

omit formed in
theorem Valid.sources (valid : Valid c start young moved) : young.sources = start.sources := by
  rw [YoungHeap.sources, YoungHeap.sources, valid.eden, valid.fromSpace]

omit formed in
theorem Valid.edenObjects (valid : Valid c start young moved) :
    young.edenObjects = start.edenObjects := by
  rw [YoungHeap.edenObjects, YoungHeap.edenObjects, valid.transNew]

theorem Valid.target_not_source (valid : Valid c start young moved) (listed : m ∈ moved) :
    m.target ∉ start.sources :=
  fun among => formed.source_not_inRoom among (valid.target_inRoom formed listed)

/-- Where the next copy goes. -/
structure Vacant (c : Scavenger) (start young : YoungHeap) (d : Destination) : Prop where
  inRoom : InRoom c start d (young.room d).top
  source : ∀ a ∈ start.sources, a ≠ (young.room d).top
  outer : ∀ a ∈ outside start, a ≠ (young.room d).top
  objects : ∀ e, ∀ a ∈ (young.room e).objects, a ≠ (young.room d).top

theorem Valid.size_pos (valid : Valid c start young moved) (among : a ∈ start.sources) :
    0 < (young.klass a).size := by
  rw [valid.klass a (.inl among)]
  exact formed.sized a among

theorem Valid.vacant (valid : Valid c start young moved)
    (room : (young.room d).top < (young.room d).limit) : Vacant c start young d := by
  rw [(valid.span d).2] at room
  have inRoom := formed.room_inRoom (valid.top d).1 room
  have objects : ∀ e, ∀ a ∈ (young.room e).objects, a ≠ (young.room d).top := by
    rintro e a among rfl
    obtain ⟨there, below⟩ := valid.objects_inRoom formed among
    obtain rfl := formed.inRoom_unique inRoom there
    omega
  refine ⟨inRoom, ?_, ?_, objects⟩
  · rintro a among rfl
    exact formed.source_not_inRoom among inRoom
  · rintro a among rfl
    simp only [outside, mem_append] at among
    rcases among with (eden | tenured) | permanent
    · exact formed.eden_not_inRoom eden inRoom
    · have among : (young.room d).top ∈ (young.room .tenured).objects := by
        rw [valid.objects]
        exact mem_append_left _ tenured
      exact objects .tenured _ among rfl
    · exact formed.perm_not_inRoom permanent inRoom

/-! ### The fields after a copy -/

omit formed in
theorem forwardee_of_mark {target : Nat} (pointer : young.mark a = encodePointerAsMark (8 * target)) :
    c.forwardee young a = target := by
  simp [Scavenger.forwardee, pointer]

omit formed in
theorem evacuate_moves (σ : Scan) (d : Destination) (a : Nat) :
    Moves σ.toMemory (evacuate σ d a).toMemory a (σ.room d).top (agedMark d) where
  mark _ := by
    cases d with
    | tenured =>
      simp only [evacuate, Scan.forwardTo, Scan.copyTo, Memory.forwardTo, Memory.copy, update_apply,
        agedMark]
    | toSpace =>
      have copied : (σ.copyTo .toSpace a).mark (σ.room .toSpace).top = σ.mark a := update_self ..
      simp only [evacuate, Scan.forwardTo, Memory.forwardTo, Scan.addAge, Scan.incrAge, copied,
        agedMark]
      split <;> simp [Scan.copyTo, Memory.copy, update_apply]
  klass _ := by cases d <;> exact update_apply ..
  words := by cases d <;> rfl

omit formed in
theorem evacuate_displaced (header : Nat) :
    (evacuate σ d a).displaced header = σ.displaced header ∨
      (evacuate σ d a).displaced header = MarkWord.incrAge (σ.displaced header) := by
  cases d with
  | tenured => exact .inl rfl
  | toSpace =>
    simp only [evacuate, Scan.forwardTo, Scan.addAge, Scan.incrAge]
    split
    · by_cases own : header = displacedPointer ((σ.copyTo .toSpace a).mark (σ.room .toSpace).top)
      · rw [own, update_self]
        exact .inr rfl
      · rw [update_of_ne own]
        exact .inl rfl
    · exact .inl rfl

omit formed in
theorem evacuate_room : (evacuate σ d a).room = update σ.room d
    { σ.room d with
      top := (σ.room d).top + (σ.klass a).size
      objects := (σ.room d).objects ++ [(σ.room d).top] } := by
  cases d <;> rfl

omit formed in
theorem evacuate_room_self : (evacuate σ d a).room d =
    { σ.room d with
      top := (σ.room d).top + (σ.klass a).size
      objects := (σ.room d).objects ++ [(σ.room d).top] } := by
  rw [evacuate_room, update_self]

omit formed in
theorem evacuate_room_of_ne (other : e ≠ d) : (evacuate σ d a).room e = σ.room e := by
  rw [evacuate_room, update_of_ne other]

omit formed in
theorem evacuate_frame : (evacuate σ d a).eden = σ.eden ∧
    (evacuate σ d a).fromSpace = σ.fromSpace ∧ (evacuate σ d a).transNew = σ.transNew ∧
    (evacuate σ d a).perm = σ.perm ∧ (evacuate σ d a).savedMark = σ.savedMark ∧
    (evacuate σ d a).discovering = σ.discovering ∧ (evacuate σ d a).discovered = σ.discovered := by
  cases d <;> exact ⟨rfl, rfl, rfl, rfl, rfl, rfl, rfl⟩

/-! ### Each step keeps the heap valid -/

omit formed in
theorem Carries.mono {before after : Nat} {more : List Move} (carries : Carries moved before after) :
    Carries (moved ++ more) before after := by
  rcases carries with same | ⟨m, listed, source, target⟩
  · exact .inl same
  · exact .inr ⟨m, mem_append_left _ listed, source, target⟩

theorem valid_start : Valid c start start [] where
  toImage := image_start fun _ => .inl rfl
  eden := rfl
  fromSpace := rfl
  transNew := rfl
  perm := rfl
  span := fun _ => ⟨rfl, rfl⟩
  top := fun d => ⟨le_refl _, (formed.topInside d).2⟩
  objects := by simp
  fresh := by simp
  extent := by simp
  forwarded := by
    intro a among marked
    rw [formed.unmarked a among] at marked
    cases marked
  sourceWords := fun _ _ _ => rfl
  displaced := fun _ => ⟨0, rfl⟩

omit formed in
theorem fits_iff : fits σ d a = true ↔ (σ.room d).top + (σ.klass a).size ≤ (σ.room d).limit := by
  simp [fits]

theorem Valid.fresh_of_fits (valid : Valid c start σ.toYoungHeap moved)
    (among : a ∈ start.sources) (room : fits σ d a = true) : Vacant c start σ.toYoungHeap d := by
  have size := valid.size_pos formed among
  have limit := fits_iff.mp room
  exact valid.vacant formed (by omega)

theorem WellFormed.layout : Layout (· ∈ start.sources) (Stays start) start.toMemory where
  stays _ := .inl
  sized := formed.sized

/-- The next copy goes behind the earlier ones in its space, and the two spaces lie apart. -/
theorem Valid.movable (valid : Valid c start σ.toYoungHeap moved) (among : a ∈ start.sources)
    (white : σ.isForwarded a = false) (room : fits σ d a = true) :
    Movable Move.source Move.target (· ∈ start.sources) (Stays start) start.toMemory σ.toMemory
      moved ⟨a, d, (σ.room d).top⟩ where
  good := among
  white := white
  vacant := by
    have vacant := valid.fresh_of_fits formed among room
    rintro (source | outer)
    · exact vacant.source _ source rfl
    · exact vacant.outer _ outer rfl
  apart := by
    intro m listed
    have extent := valid.extent m listed
    have limit := fits_iff.mp room
    rw [valid.klass a (.inl among), (valid.span d).2] at limit
    have below := formed.toBelow
    have gen1 := formed.gen1Below
    have old := formed.oldAbove
    have toTop := valid.top .toSpace
    have oldTop := valid.top .tenured
    have fresh := (valid.fresh m listed).1
    rw [Apart]
    cases dest : m.dest <;> cases d <;> rw [dest] at extent fresh <;> dsimp only <;> omega

omit formed in
theorem evacuate_span (σ : Scan) (d : Destination) (a : Nat) (e : Destination) :
    ((evacuate σ d a).room e).bottom = (σ.room e).bottom ∧
      ((evacuate σ d a).room e).limit = (σ.room e).limit ∧
      (σ.room e).top ≤ ((evacuate σ d a).room e).top := by
  by_cases same : e = d
  · subst same
    rw [evacuate_room_self]
    exact ⟨rfl, rfl, Nat.le_add_right _ _⟩
  · rw [evacuate_room_of_ne same]
    exact ⟨rfl, rfl, le_refl _⟩

theorem Valid.copy (valid : Valid c start σ.toYoungHeap moved) (among : a ∈ start.sources)
    (white : σ.isForwarded a = false) (room : fits σ d a = true) :
    Valid c start (evacuate σ d a).toYoungHeap (moved ++ [⟨a, d, (σ.room d).top⟩]) where
  toImage := valid.toImage.move formed.layout (valid.movable formed among white room)
    (evacuate_moves σ d a) (fun _ => .inl rfl) Carries.mono
  eden := evacuate_frame.1.trans valid.eden
  fromSpace := evacuate_frame.2.1.trans valid.fromSpace
  transNew := evacuate_frame.2.2.1.trans valid.transNew
  perm := evacuate_frame.2.2.2.1.trans valid.perm
  span := by
    intro e
    obtain ⟨bottom, top, -⟩ := evacuate_span σ d a e
    rw [bottom, top]
    exact valid.span e
  top := by
    intro e
    refine ⟨le_trans (valid.top e).1 (evacuate_span σ d a e).2.2, ?_⟩
    by_cases same : e = d
    · subst same
      rw [evacuate_room_self, ← (valid.span e).2]
      exact fits_iff.mp room
    · rw [evacuate_room_of_ne same]
      exact (valid.top e).2
  objects := by
    intro e
    by_cases same : e = d
    · subst same
      rw [evacuate_room_self]
      simp [valid.objects]
    · rw [evacuate_room_of_ne same, valid.objects]
      simp [Ne.symm same]
  fresh := by
    refine forall_mem_concat (fun m listed => ?_) ⟨(valid.top d).1, ?_⟩
    · obtain ⟨low, high⟩ := valid.fresh m listed
      exact ⟨low, lt_of_lt_of_le high (evacuate_span σ d a m.dest).2.2⟩
    · rw [evacuate_room_self]
      exact Nat.lt_add_of_pos_right (valid.size_pos formed among)
  extent := by
    refine forall_mem_concat (fun m listed => ?_) ?_
    · exact le_trans (valid.extent m listed) (evacuate_span σ d a m.dest).2.2
    · rw [evacuate_room_self, ← valid.klass a (.inl among)]
  forwarded := by
    intro b inside marked
    by_cases same : b = a
    · exact ⟨_, mem_append_right _ (mem_singleton_self _), same.symm⟩
    · have vacant := valid.fresh_of_fits formed among room
      rw [Memory.isForwarded, (evacuate_moves σ d a).mark_of_ne same (vacant.source b inside)]
        at marked
      obtain ⟨m, listed, source⟩ := valid.forwarded b inside marked
      exact ⟨m, mem_append_left _ listed, source⟩
  sourceWords := by
    intro b inside offset
    have vacant := valid.fresh_of_fits formed among room
    rw [(evacuate_moves σ d a).field, if_neg (vacant.source b inside)]
    exact valid.sourceWords b inside offset
  displaced := by
    intro header
    obtain ⟨n, same⟩ := valid.displaced header
    rcases evacuate_displaced (σ := σ) (d := d) (a := a) header with kept | aged
    · exact ⟨n, kept.trans same⟩
    · refine ⟨n + 1, ?_⟩
      rw [aged, same, iterate_succ_apply']

theorem WellFormed.inRoom_ne_zero (here : InRoom c start d a) : a ≠ 0 := by
  have nonNull := formed.nonNull
  have above := formed.toAbove
  have below := formed.toBelow
  have gen1 := formed.gen1Below
  have bottom := formed.topInside .toSpace
  cases d with
  | toSpace | tenured =>
    obtain ⟨low, -⟩ := here
    omega

theorem WellFormed.outside_not_toSpace (outer : a ∈ outside start) :
    ¬ InRoom c start .toSpace a := by
  intro inside
  simp only [outside, mem_append] at outer
  rcases outer with (eden | tenured) | permanent
  · exact formed.eden_not_inRoom eden inside
  · cases formed.inRoom_unique (formed.objects_inRoom tenured).1 inside
  · exact formed.perm_not_inRoom permanent inside

omit formed in
theorem Valid.mem_target (valid : Valid c start young moved)
    (vacated : (start.room .toSpace).objects = []) (among : a ∈ (young.room d).objects) :
    a ∈ outside start ∨ ∃ m ∈ moved, m.target = a := by
  rw [valid.objects d] at among
  rcases mem_append.mp among with old | copy
  · cases d with
    | toSpace =>
      rw [vacated] at old
      cases old
    | tenured => exact .inl (by simp [outside, old])
  · obtain ⟨m, filtered, same⟩ := mem_map.mp copy
    exact .inr ⟨m, (mem_filter.mp filtered).1, same⟩

omit formed in
/-- A slot that is followed lies in an object that stays or in a copy. -/
theorem Valid.visible_cases (valid : Valid c start σ.toYoungHeap moved)
    (vacated : (start.room .toSpace).objects = []) {offset : Nat}
    (visible : Visible σ (.field obj offset)) :
    obj ∈ outside start ∨ ∃ m ∈ moved, m.target = obj := by
  rcases visible with eden | permanent | ⟨d, scanned⟩
  · rw [valid.edenObjects] at eden
    exact .inl (by simp [outside, eden])
  · rw [valid.perm] at permanent
    exact .inl (by simp [outside, permanent])
  · exact valid.mem_target vacated (mem_of_mem_take scanned)

theorem Valid.visible_not_source (valid : Valid c start σ.toYoungHeap moved)
    (vacated : (start.room .toSpace).objects = []) {offset : Nat}
    (visible : Visible σ (.field obj offset)) : obj ∉ start.sources := by
  rcases valid.visible_cases vacated visible with outer | ⟨m, listed, rfl⟩
  · exact formed.outside_not_source outer
  · exact valid.target_not_source formed listed

/-- The link of an active reference was null from the start. -/
theorem Valid.next_zero (valid : Valid c start young moved) (listed : m ∈ moved)
    (active : young.words (.field m.target nextOffset) = 0) :
    start.words (.field m.source nextOffset) = 0 := by
  rcases valid.copySlots m listed nextOffset with (same | ⟨n, other, -, target⟩) | ⟨⟨offset, -⟩, -⟩
  · exact same.symm.trans active
  · exact absurd (target.trans active) (formed.inRoom_ne_zero (valid.target_inRoom formed other))
  · cases offset

theorem Valid.clearableCopy (valid : Valid c start σ.toYoungHeap moved) (listed : m ∈ moved)
    {offset : Nat} (weak : Clearable c σ (.field m.target offset)) :
    ClearableCopy c start m offset := by
  obtain ⟨referent, survivor, active, kind⟩ := weak
  refine ⟨referent, ?_, valid.next_zero formed listed active, ?_⟩
  · exact formed.inRoom_unique (valid.target_inRoom formed listed)
      (valid.objects_inRoom formed survivor).1
  · rw [valid.copyKlass m listed] at kind
    exact kind

theorem Valid.store (valid : Valid c start σ.toYoungHeap moved)
    (vacated : (start.room .toSpace).objects = []) (visible : Visible σ s) (slot : IsSlot σ s)
    {value : Nat} (carried : ∀ before, Carries moved before (σ.words s) →
      Carries moved before value ∨ Clearable c σ s ∧ value = 0)
    (cleared : σ.words s = 0 → value = 0) : Valid c start (σ.store s value).toYoungHeap moved := by
  have elsewhere : ∀ {obj offset}, s = .field obj offset → obj ∉ start.sources := by
    rintro obj offset rfl
    exact valid.visible_not_source formed vacated visible
  have touchable : Touchable (· ∈ start.sources) σ.toMemory s := by
    cases s with
    | field obj offset => exact ⟨fun source => absurd source (elsewhere rfl), slot⟩
    | _ => trivial
  refine { valid with
    toImage := valid.toImage.store touchable ?_ ?_ cleared
    sourceWords := ?_ }
  · rintro m listed offset rfl before carries
    refine (carried before carries).imp_right fun ⟨weak, zero⟩ => ⟨?_, zero⟩
    exact valid.clearableCopy formed listed weak
  · intro place before carries
    refine (carried before carries).imp_right fun ⟨weak, zero⟩ => ⟨?_, zero⟩
    cases s with
    | root i => cases weak
    | weakRoot i => exact ⟨i, rfl⟩
    | field obj offset =>
      have survivor := (valid.objects_inRoom formed weak.2.1).1
      rcases place with source | outer
      · exact absurd source (elsewhere rfl)
      · exact absurd survivor (formed.outside_not_toSpace outer)
  · intro b inside offset
    refine (store_of_ne ?_).trans (valid.sourceWords b inside offset)
    rintro rfl
    exact elsewhere rfl inside

omit formed in
theorem Valid.target_of_forwarded (valid : Valid c start young moved) (among : a ∈ start.sources)
    (black : young.isForwarded a = true) :
    ∃ m ∈ moved, m.source = a ∧ m.target = c.forwardee young a := by
  obtain ⟨m, listed, rfl⟩ := valid.forwarded a among black
  exact ⟨m, listed, rfl, (forwardee_of_mark (valid.source m listed).2).symm⟩

theorem Carries.redirect (valid : Valid c start young moved) {before after : Nat}
    (carries : Carries moved before after) (among : after ∈ start.sources)
    (black : young.isForwarded after = true) : Carries moved before (c.forwardee young after) := by
  rcases carries with same | ⟨m, listed, -, target⟩
  · obtain ⟨m, listed, source, target⟩ := valid.target_of_forwarded among black
    exact .inr ⟨m, listed, source.trans same, target⟩
  · -- a slot that was redirected points to a copy
    rw [← target] at among
    exact absurd among (valid.target_not_source formed listed)

theorem Step.valid (vacated : (start.room .toSpace).objects = [])
    (step : Step c start touch loops σ τ) (valid : Valid c start σ.toYoungHeap moved) :
    ∃ more, Valid c start τ.toYoungHeap (moved ++ more) := by
  cases step with
  | copy among white room => exact ⟨_, valid.copy formed among white room⟩
  | redirect touched visible slot among black =>
    refine ⟨[], ?_⟩
    rw [append_nil]
    refine valid.store formed vacated visible slot (fun _ carries => .inl ?_) fun zero => ?_
    · exact carries.redirect formed valid among black
    · exact absurd zero (formed.source_ne_zero among)
  | clear touched visible slot late weak dead =>
    refine ⟨[], ?_⟩
    rw [append_nil]
    exact valid.store formed vacated visible slot (fun _ _ => .inr ⟨weak, rfl⟩) fun _ => rfl
  | card cards =>
    refine ⟨[], ?_⟩
    rw [append_nil]
    exact { valid with }
  | _ =>
    refine ⟨[], ?_⟩
    rw [append_nil]
    exact valid

end ScavengeSteps
