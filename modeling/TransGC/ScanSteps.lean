import Mathlib.Logic.Relation
import TransGC.EdenScan
import TransGC.ObjectMoves

/-!
# What the scan of an eden can do to the heap

Every closure of the collection is made of a few steps: an object of the eden is copied to Tenured
or forwarded to itself, a slot that points to a forwarded object is redirected, a weak slot is
cleared, a reference goes on a discovered list or leaves it. `Valid` relates the heap in any later
state to the heap at the start. `Good` is a set of objects that alone are forwarded: the whole
eden, or the part that can be reached.
-/
namespace ScanSteps
open EdenTable MarkWord ObjectHeap ObjectMoves EdenScan Function List

/-- All objects of the heap. -/
def allObjects (heap : Heap) : List Nat :=
  heap.gen0 ++ heap.transNew.transEdens.flatMap TransEden.objects ++ heap.old ++ heap.perm

inductive HasSlot (c : Collector) (heap : Heap) : Slot → Prop
  | root {i : Nat} (bound : i < c.rootCount) : HasSlot c heap (.root i)
  | weakRoot {i : Nat} (bound : i < c.weakRootCount) : HasSlot c heap (.weakRoot i)
  | field {obj offset : Nat} (among : obj ∈ allObjects heap)
      (slot : offset ∈ (heap.klass obj).slots) : HasSlot c heap (.field obj offset)

/-- The spaces lie where the collector takes them to be, nothing in the eden is marked, a slot that
points into the eden points to an object of it, and an oop map leaves the referent out. -/
structure WellFormed (c : Collector) (heap : Heap) : Prop where
  nonNull : 0 < c.edenBottom c.id
  edenAbove : c.start .gen1 ≤ c.edenBottom c.id
  edenSpan : c.edenBottom c.id ≤ c.edenEnd c.id
  edenBelow : c.edenEnd c.id ≤ c.start .old
  oldAbove : c.start .old ≤ heap.oldTop
  permAbove : c.oldEnd ≤ c.start .perm
  topInside : heap.oldTop ≤ c.oldEnd
  inEden : ∀ a ∈ heap.edenObjects c.id, c.inEden a = true
  gen0 : ∀ a ∈ heap.gen0, a < c.start .gen1
  otherEdens : ∀ i, i ≠ c.id → ∀ a ∈ heap.edenObjects i,
    c.start .gen1 ≤ a ∧ a < c.start .old ∧ c.inEden a = false
  old : ∀ a ∈ heap.old, c.start .old ≤ a ∧ a < heap.oldTop
  perm : ∀ a ∈ heap.perm, c.start .perm ≤ a
  sized : ∀ a ∈ heap.edenObjects c.id, 0 < (heap.klass a).size
  unmarked : ∀ a ∈ heap.edenObjects c.id, heap.isForwarded a = false
  pointers : ∀ s, HasSlot c heap s → c.inEden (heap.words s) = true →
    heap.words s ∈ heap.edenObjects c.id
  oopMaps : ∀ a ∈ allObjects heap, (heap.klass a).reference.isSome = true →
    referentOffset ∉ (heap.klass a).oops

/-- A weak handle, or the referent of a reference that is cleared when nothing else reaches it. -/
def Clearable (c : Collector) (start : Heap) : Slot → Prop
  | .root _ => False
  | .weakRoot _ => True
  | .field r offset =>
    offset = referentOffset ∧ c.regionOf r = .gen1 ∧ start.words (.field r nextOffset) = 0 ∧
      ((start.klass r).reference = some .weak ∨
        (start.klass r).reference = some .soft ∧ c.shouldClear r = true)

/-- The value is not an object of the eden, or one that stays where it is. -/
def Settled (c : Collector) (heap : Heap) (value : Nat) : Prop :=
  c.inEden value = false ∨ heap.isForwarded value = true ∧ c.forwardee heap value = value

def GoodSlot (c : Collector) (Good : Nat → Prop) (heap : Heap) (s : Slot) : Prop :=
  c.inEden (heap.words s) = true → Good (heap.words s)

/-- Not above the top of Tenured, and not in an untouched object of the eden. -/
def Visible (c : Collector) (start heap : Heap) : Slot → Prop
  | .field obj _ => (obj < heap.oldTop ∨ c.oldEnd ≤ obj) ∧
      (obj ∈ start.edenObjects c.id → heap.isForwarded obj = true)
  | _ => True

/-- Words outside the oop maps are no slots: the closures leave them alone. -/
def IsSlot (heap : Heap) : Slot → Prop
  | .field obj offset => offset ∈ (heap.klass obj).slots
  | _ => True

/-- `Good` objects lie in the eden and lead only to good ones. -/
structure Closed (c : Collector) (start : Heap) (Good : Nat → Prop) : Prop where
  eden : ∀ a, Good a → a ∈ start.edenObjects c.id
  slots : ∀ a, Good a → ∀ offset ∈ (start.klass a).slots, GoodSlot c Good start (.field a offset)

/-- What a scan starts from. -/
structure Setup (c : Collector) (start : Heap) (Good : Nat → Prop) : Prop where
  formed : WellFormed c start
  closed : Closed c start Good

/-- A reference that may go on a discovered list. -/
structure Listed (c : Collector) (start : Heap) (Good : Nat → Prop) (heap : Heap)
    (kind : ReferenceType) (r : Nat) : Prop where
  region : c.regionOf r = .gen1
  ofKind : (heap.klass r).reference = some kind
  active : heap.words (.field r nextOffset) = 0
  policy : kind = .soft → c.shouldClear r = true
  typed : kind ≠ .other
  visible : Visible c start heap (.field r referentOffset)
  inside : GoodSlot c (· ∈ start.edenObjects c.id) heap (.field r referentOffset)
  held : GoodSlot c Good heap (.field r referentOffset) ∨
    Clearable c start (.field r referentOffset)

/-- Steps that only the loops around the closures make. -/
inductive LoopStep where
  | pop
  | advance
  | stopDiscovery
  deriving DecidableEq

/-- One step of a part of the collection that makes only the given loop steps. -/
inductive Step (c : Collector) (start : Heap) (Good : Nat → Prop) (loops : List LoopStep) :
    Scan → Scan → Prop
  | copy {σ : Scan} {a : Nat} (good : Good a) (white : σ.isForwarded a = false)
      (fits : σ.oldTop + (σ.klass a).size ≤ c.oldEnd) :
      Step c start Good loops σ ((σ.copyToTop a).forwardTo a σ.oldTop)
  | fail {σ : Scan} {a : Nat} (good : Good a) (white : σ.isForwarded a = false) :
      Step c start Good loops σ (handlePromotionFailure c σ a)
  | redirect {σ : Scan} {s : Slot} (visible : Visible c start σ.toHeap s)
      (slot : IsSlot σ.toHeap s) (good : Good (σ.words s)) (black : σ.isForwarded (σ.words s) = true) :
      Step c start Good loops σ (σ.store s (c.forwardee σ.toHeap (σ.words s)))
  | clear {σ : Scan} {s : Slot} (visible : Visible c start σ.toHeap s)
      (slot : IsSlot σ.toHeap s) (late : σ.discovering = false) (weak : Clearable c start s)
      (dead : σ.words s = 0 ∨
        c.inEden (σ.words s) = true ∧ σ.isForwarded (σ.words s) = false) :
      Step c start Good loops σ (σ.store s 0)
  | discover {σ : Scan} {kind : ReferenceType} {r : Nat} (early : σ.discovering = true)
      (listed : Listed c start Good σ.toHeap kind r) :
      Step c start Good loops σ (σ.addDiscovered kind r)
  | remove {σ : Scan} {kind : ReferenceType} {r : Nat}
      (settled : Settled c σ.toHeap (σ.words (.field r referentOffset))) :
      Step c start Good loops σ (σ.removeDiscovered kind r)
  | pop {σ : Scan} {obj : Nat} {rest : List Nat} (allowed : .pop ∈ loops)
      (stack : σ.failureStack = obj :: rest) :
      Step c start Good loops σ { σ with failureStack := rest }
  | card {σ : Scan} {cards : Region → Nat → Card} (marks : Marks σ.cards cards) :
      Step c start Good loops σ { σ with cards := cards }
  | advance {σ : Scan} (allowed : .advance ∈ loops) (bound : σ.savedMark < σ.old.length) :
      Step c start Good loops σ { σ with savedMark := σ.savedMark + 1 }
  | stopDiscovery {σ : Scan} (allowed : .stopDiscovery ∈ loops) :
      Step c start Good loops σ { σ with discovering := false }

def Steps (c : Collector) (start : Heap) (Good : Nat → Prop) (loops : List LoopStep) :
    Scan → Scan → Prop :=
  Relation.ReflTransGen (Step c start Good loops)

/-- A slot keeps its value, or gets the new address of the object it points to. -/
def Carries (c : Collector) (start heap : Heap) (before after : Nat) : Prop :=
  after = before ∨ before ∈ start.edenObjects c.id ∧ heap.isForwarded before = true ∧
    after = c.forwardee heap before

/-- The addresses that no copy goes to. -/
def Kept (c : Collector) (start : Heap) (a : Nat) : Prop := a < start.oldTop ∨ c.oldEnd ≤ a

/-- How the heap is related to the heap at the start. `moved` pairs each copied object with its
copy. -/
structure Valid (c : Collector) (start : Heap) (Good : Nat → Prop) (heap : Heap)
    (moved : List (Nat × Nat)) : Prop extends
    Image Prod.fst Prod.snd (fun _ mark => mark) Good (Kept c start) (Carries c start heap)
      (Clearable c start) (fun _ _ => False) start.toMemory heap.toMemory moved where
  transNew : heap.transNew = start.transNew
  gen0 : heap.gen0 = start.gen0
  perm : heap.perm = start.perm
  top : start.oldTop ≤ heap.oldTop
  limit : heap.oldTop ≤ c.oldEnd
  old : heap.old = start.old ++ moved.map Prod.snd
  fresh : ∀ p ∈ moved, start.oldTop ≤ p.2 ∧ p.2 < heap.oldTop
  extent : ∀ p ∈ moved, p.2 + (start.klass p.1).size ≤ heap.oldTop
  forwarded : ∀ a ∈ start.edenObjects c.id, heap.isForwarded a = true →
    (∃ target, (a, target) ∈ moved) ∨ Good a ∧ heap.mark a = encodePointerAsMark (8 * a)

section

variable {c : Collector} {start : Heap} {Good : Nat → Prop} {loops : List LoopStep}
  {heap : Heap} {σ τ : Scan} {a target : Nat} {s : Slot} {moved : List (Nat × Nat)}

theorem forwardee_of_mark (pointer : heap.mark a = encodePointerAsMark (8 * target)) :
    c.forwardee heap a = target := by
  simp [Collector.forwardee, pointer]

theorem Carries.mono {heap' : Heap} {before after : Nat}
    (stable : ∀ b ∈ start.edenObjects c.id, heap.isForwarded b = true → heap'.mark b = heap.mark b)
    (carries : Carries c start heap before after) : Carries c start heap' before after := by
  rcases carries with same | ⟨among, marked, redirected⟩
  · exact .inl same
  · have mark := stable before among marked
    refine .inr ⟨among, ?_, ?_⟩
    · rwa [Memory.isForwarded, mark]
    · rwa [Collector.forwardee, mark]

theorem copy_moves (σ : Scan) (a : Nat) : Moves σ.toMemory
    ((σ.copyToTop a).forwardTo a σ.oldTop).toMemory a σ.oldTop fun mark => mark where
  mark _ := by simp only [Scan.forwardTo, Scan.copyToTop, Memory.forwardTo, Memory.copy, update_apply]
  klass _ := update_apply ..
  words := rfl

theorem Valid.copyWords (valid : Valid c start Good heap moved) (p : Nat × Nat) (pair : p ∈ moved)
    (offset : Nat) :
    Carries c start heap (start.words (.field p.1 offset)) (heap.words (.field p.2 offset)) :=
  (valid.copySlots p pair offset).resolve_right fun cleared => cleared.1

section

variable (formed : WellFormed c start)
include formed

theorem WellFormed.lt_top (inside : c.inEden a = true) : a < start.oldTop := by
  have below := formed.edenBelow
  have above := formed.oldAbove
  simp only [Collector.inEden, Bool.and_eq_true, decide_eq_true_eq] at inside
  omega

theorem WellFormed.ne_zero (inside : c.inEden a = true) : a ≠ 0 := by
  have nonNull := formed.nonNull
  simp only [Collector.inEden, Bool.and_eq_true, decide_eq_true_eq] at inside
  omega

theorem WellFormed.inEden_zero : c.inEden 0 = false := by
  cases inside : c.inEden 0 with
  | false => rfl
  | true => exact absurd rfl (formed.ne_zero inside)

theorem WellFormed.not_inEden (above : start.oldTop ≤ a) : c.inEden a = false := by
  cases inside : c.inEden a with
  | false => rfl
  | true =>
    have := formed.lt_top inside
    omega

theorem WellFormed.eden_lt_top (among : a ∈ start.edenObjects c.id) : a < start.oldTop :=
  formed.lt_top (formed.inEden a among)

omit formed

section Forwarded

variable (valid : Valid c start Good heap moved) (among : a ∈ start.edenObjects c.id)
  (marked : heap.isForwarded a = true)
include valid among marked

theorem Valid.forwardee_cases :
    (∃ target, (a, target) ∈ moved ∧ c.forwardee heap a = target ∧ start.oldTop ≤ target) ∨
      c.forwardee heap a = a := by
  rcases valid.forwarded a among marked with ⟨target, pair⟩ | ⟨-, pointer⟩
  · exact .inl ⟨target, pair, forwardee_of_mark (valid.source _ pair).2, (valid.fresh _ pair).1⟩
  · exact .inr (forwardee_of_mark pointer)

theorem Valid.good_of_forwarded : Good a := by
  rcases valid.forwarded a among marked with ⟨target, pair⟩ | ⟨good, -⟩
  · exact (valid.source _ pair).1
  · exact good

include formed

theorem Valid.settled_forwardee : Settled c heap (c.forwardee heap a) := by
  rcases valid.forwardee_cases among marked with ⟨target, -, same, above⟩ | same
  · rw [same]
    exact .inl (formed.not_inEden above)
  · rw [same]
    exact .inr ⟨marked, same⟩

theorem Valid.forwardee_ne_zero : c.forwardee heap a ≠ 0 := by
  have below := formed.eden_lt_top among
  rcases valid.forwardee_cases among marked with ⟨target, -, same, above⟩ | same
  · omega
  · rw [same]
    exact formed.ne_zero (formed.inEden a among)

end Forwarded

include formed

/-! ### Each step keeps the heap valid -/

theorem valid_start : Valid c start Good start [] where
  toImage := image_start fun _ => .inl rfl
  transNew := rfl
  gen0 := rfl
  perm := rfl
  top := Nat.le_refl _
  limit := formed.topInside
  old := by simp
  fresh := by simp
  extent := by simp
  forwarded := by
    intro a among marked
    rw [formed.unmarked a among] at marked
    cases marked

theorem Valid.size_pos (valid : Valid c start Good heap moved)
    (among : a ∈ start.edenObjects c.id) : 0 < (heap.klass a).size := by
  rw [valid.klass a (.inl (formed.eden_lt_top among))]
  exact formed.sized a among

omit formed in
theorem Setup.layout (setup : Setup c start Good) : Layout Good (Kept c start) start.toMemory where
  stays a good := .inl (setup.formed.eden_lt_top (setup.closed.eden a good))
  sized a good := setup.formed.sized a (setup.closed.eden a good)

/-- A forwarded object keeps its mark when another one is copied. -/
theorem mark_of_copy (valid : Valid c start Good σ.toHeap moved) {b : Nat}
    (white : σ.isForwarded a = false) (inside : c.inEden b = true)
    (marked : σ.isForwarded b = true) :
    ((σ.copyToTop a).forwardTo a σ.oldTop).mark b = σ.mark b := by
  have low := formed.lt_top inside
  have top := valid.top
  refine (copy_moves σ a).mark_of_ne ?_ (by omega)
  rintro rfl
  rw [white] at marked
  cases marked

omit formed in
/-- The next copy goes behind all earlier ones. -/
theorem Valid.movable (setup : Setup c start Good) (valid : Valid c start Good σ.toHeap moved)
    (good : Good a) (white : σ.isForwarded a = false)
    (fits : σ.oldTop + (σ.klass a).size ≤ c.oldEnd) :
    Movable Prod.fst Prod.snd Good (Kept c start) start.toMemory σ.toMemory moved
      (a, σ.oldTop) where
  good := good
  white := white
  vacant := by
    have size := valid.size_pos setup.formed (setup.closed.eden a good)
    have top := valid.top
    rw [Kept]
    omega
  apart := fun p pair => .inl (valid.extent p pair)

omit formed in
theorem Valid.copy (setup : Setup c start Good) (valid : Valid c start Good σ.toHeap moved)
    (good : Good a) (white : σ.isForwarded a = false)
    (fits : σ.oldTop + (σ.klass a).size ≤ c.oldEnd) :
    Valid c start Good ((σ.copyToTop a).forwardTo a σ.oldTop).toHeap (moved ++ [(a, σ.oldTop)]) where
  toImage := valid.toImage.move setup.layout (valid.movable setup good white fits) (copy_moves σ a)
    (fun _ => .inl rfl) fun carries => carries.mono fun b among =>
      mark_of_copy setup.formed valid white (setup.formed.inEden b among)
  transNew := valid.transNew
  gen0 := valid.gen0
  perm := valid.perm
  top := Nat.le_add_right_of_le valid.top
  limit := fits
  old := by
    change σ.old ++ [σ.oldTop] = _
    rw [valid.old, map_append, append_assoc]
    rfl
  fresh := by
    have size := valid.size_pos setup.formed (setup.closed.eden a good)
    refine forall_mem_concat (fun p pair => ?_) ⟨valid.top, Nat.lt_add_of_pos_right size⟩
    exact ⟨(valid.fresh p pair).1, Nat.lt_add_right _ (valid.fresh p pair).2⟩
  extent := by
    refine forall_mem_concat (fun p pair => Nat.le_add_right_of_le (valid.extent p pair)) ?_
    rw [← valid.klass a (setup.layout.stays a good)]
    exact Nat.le_refl _
  forwarded := by
    intro b inside marked
    by_cases same : b = a
    · exact .inl ⟨σ.oldTop, by simp [same]⟩
    · have low := setup.formed.eden_lt_top inside
      have top := valid.top
      have mark := (copy_moves σ a).mark_of_ne same (show b ≠ σ.oldTop by omega)
      rw [Memory.isForwarded, mark] at marked
      rw [mark]
      rcases valid.forwarded b inside marked with ⟨target, pair⟩ | itself
      · exact .inl ⟨target, mem_append_left _ pair⟩
      · exact .inr itself

omit formed in
theorem Valid.fail (setup : Setup c start Good) (valid : Valid c start Good σ.toHeap moved)
    (good : Good a) (white : σ.isForwarded a = false) :
    Valid c start Good (handlePromotionFailure c σ a).toHeap moved := by
  have own : (handlePromotionFailure c σ a).mark a = encodePointerAsMark (8 * a) := update_self ..
  have others : ∀ b, b ≠ a → (handlePromotionFailure c σ a).mark b = σ.mark b :=
    fun b other => update_of_ne other ..
  have other_of_marked : ∀ b, σ.isForwarded b = true → b ≠ a := by
    rintro b marked rfl
    rw [white] at marked
    cases marked
  have stable : ∀ b ∈ start.edenObjects c.id, σ.isForwarded b = true →
      (handlePromotionFailure c σ a).mark b = σ.mark b :=
    fun b _ marked => others b (other_of_marked b marked)
  have white_before : ∀ b, (handlePromotionFailure c σ a).isForwarded b = false →
      b ≠ a ∧ σ.isForwarded b = false := by
    intro b clean
    have other : b ≠ a := by
      rintro rfl
      rw [isForwarded_of_mark own] at clean
      cases clean
    rw [Memory.isForwarded, others b other] at clean
    exact ⟨other, clean⟩
  exact
    { valid with
      source := by
        intro p pair
        obtain ⟨goodP, pointer⟩ := valid.source p pair
        rw [others p.1 (other_of_marked _ (isForwarded_of_mark pointer))]
        exact ⟨goodP, pointer⟩
      copyMark := by
        intro p pair
        have low := setup.formed.eden_lt_top (setup.closed.eden a good)
        have := valid.fresh p pair
        rw [others p.2 (by omega)]
        exact valid.copyMark p pair
      copySlots := fun p pair offset =>
        (valid.copySlots p pair offset).imp_left fun carries => carries.mono stable
      forwarded := by
        intro b inside marked
        by_cases same : b = a
        · rw [same]
          exact .inr ⟨good, own⟩
        · rw [Memory.isForwarded, others b same] at marked
          rw [others b same]
          exact valid.forwarded b inside marked
      mark := by
        intro b place clean
        have other : b ≠ a := by
          rintro rfl
          exact (white_before b (clean good)).1 rfl
        rw [others b other]
        exact valid.mark b place fun inside => (white_before b (clean inside)).2
      untouched := fun b inside clean => valid.untouched b inside (white_before b clean).2
      words := fun t place => (valid.words t place).imp_left fun carries => carries.mono stable }

theorem gen1_lt_top {r : Nat} (region : c.regionOf r = .gen1) : r < start.oldTop := by
  have above := formed.oldAbove
  unfold Collector.regionOf at region
  split at region
  · cases region
  · split at region
    · omega
    · split at region <;> cases region

omit formed in
theorem Valid.store (setup : Setup c start Good) (valid : Valid c start Good σ.toHeap moved)
    (visible : Visible c start σ.toHeap s) (slot : IsSlot σ.toHeap s) {value : Nat}
    (carried : ∀ before, Carries c start σ.toHeap before (σ.words s) →
      Carries c start σ.toHeap before value ∨ Clearable c start s ∧ value = 0)
    (cleared : σ.words s = 0 → value = 0) :
    Valid c start Good (σ.store s value).toHeap moved := by
  have touchable : Touchable Good σ.toMemory s := by
    cases s with
    | field obj offset => exact ⟨fun good => visible.2 (setup.closed.eden obj good), slot⟩
    | _ => trivial
  refine { valid with toImage := valid.toImage.store touchable ?_ (fun _ => carried) cleared }
  -- a copy lies in Tenured, where nothing is cleared
  rintro p pair offset rfl before carries
  refine .inl ((carried before carries).resolve_right fun ⟨weak, _⟩ => ?_)
  have low := gen1_lt_top setup.formed weak.2.1
  have high := (valid.fresh p pair).1
  omega

theorem Carries.redirect (valid : Valid c start Good heap moved) {before after : Nat}
    (carries : Carries c start heap before after) (among : after ∈ start.edenObjects c.id)
    (marked : heap.isForwarded after = true) :
    Carries c start heap before (c.forwardee heap after) := by
  rcases carries with same | ⟨inside, black, redirected⟩
  · rw [← same]
    exact .inr ⟨among, marked, rfl⟩
  · -- An object that a slot was redirected to lies outside the eden or is forwarded to itself.
    rcases valid.settled_forwardee formed inside black with outside | ⟨-, itself⟩
    · rw [← redirected, formed.inEden after among] at outside
      cases outside
    · rw [redirected, itself]
      exact .inr ⟨inside, black, rfl⟩

omit formed in
theorem Step.valid (setup : Setup c start Good) (step : Step c start Good loops σ τ)
    (valid : Valid c start Good σ.toHeap moved) :
    ∃ more, Valid c start Good τ.toHeap (moved ++ more) := by
  cases step with
  | copy good white fits => exact ⟨_, valid.copy setup good white fits⟩
  | fail good white => exact ⟨[], by simpa using valid.fail setup good white⟩
  | redirect visible slot good black =>
    have among := setup.closed.eden _ good
    refine ⟨[], ?_⟩
    rw [append_nil]
    refine valid.store setup visible slot (fun _ carries => .inl ?_) fun zero => ?_
    · exact carries.redirect setup.formed valid among black
    · exact absurd zero (setup.formed.ne_zero (setup.formed.inEden _ among))
  | clear visible slot late weak dead =>
    refine ⟨[], ?_⟩
    rw [append_nil]
    exact valid.store setup visible slot (fun _ _ => .inr ⟨weak, rfl⟩) fun _ => rfl
  | card marks =>
    refine ⟨[], ?_⟩
    rw [append_nil]
    exact { valid with }
  | _ =>
    refine ⟨[], ?_⟩
    rw [append_nil]
    exact valid

/-! ### What one step leaves as it is -/

omit formed in
theorem Step.top_le (step : Step c start Good loops σ τ) : σ.oldTop ≤ τ.oldTop := by
  cases step with
  | copy good white fits => exact Nat.le_add_right _ _
  | _ => exact Nat.le_refl _

theorem Step.mark_of_forwarded (step : Step c start Good loops σ τ)
    (valid : Valid c start Good σ.toHeap moved) (inside : c.inEden a = true)
    (marked : σ.isForwarded a = true) : τ.mark a = σ.mark a := by
  cases step with
  | copy good white fits => exact mark_of_copy formed valid white inside marked
  | fail good white =>
    refine update_of_ne ?_ ..
    rintro rfl
    rw [marked] at white
    cases white
  | _ => rfl

theorem Step.forwarded (step : Step c start Good loops σ τ)
    (valid : Valid c start Good σ.toHeap moved) (inside : c.inEden a = true)
    (marked : σ.isForwarded a = true) :
    τ.isForwarded a = true ∧ c.forwardee τ.toHeap a = c.forwardee σ.toHeap a := by
  have same := step.mark_of_forwarded formed valid inside marked
  refine ⟨?_, ?_⟩
  · rwa [Memory.isForwarded, same]
  · rw [Collector.forwardee, same, Collector.forwardee]

theorem Step.visible (step : Step c start Good loops σ τ)
    (valid : Valid c start Good σ.toHeap moved) (visible : Visible c start σ.toHeap s) :
    Visible c start τ.toHeap s := by
  cases s with
  | root i => trivial
  | weakRoot i => trivial
  | field obj offset =>
    have top := step.top_le
    obtain ⟨place, black⟩ := visible
    refine ⟨by omega, fun inside => ?_⟩
    exact (step.forwarded formed valid (formed.inEden _ inside) (black inside)).1

end

/-- What can happen to a slot. -/
inductive Evolves (c : Collector) (start : Heap) (Good : Nat → Prop) (σ τ : Scan) (s : Slot) : Prop
  | same (kept : τ.words s = σ.words s)
  | redirected (good : Good (σ.words s)) (marked : τ.isForwarded (σ.words s) = true)
      (moved : τ.words s = c.forwardee τ.toHeap (σ.words s))
  | cleared (weak : Clearable c start s) (late : σ.discovering = false)
      (dead : σ.words s = 0 ∨ c.inEden (σ.words s) = true ∧ σ.isForwarded (σ.words s) = false)
      (zero : τ.words s = 0)

theorem Step.evolves (setup : Setup c start Good) (step : Step c start Good loops σ τ)
    (valid : Valid c start Good σ.toHeap moved) (visible : Visible c start σ.toHeap s) :
    Evolves c start Good σ τ s := by
  cases step with
  | copy good white fits =>
    have size := valid.size_pos setup.formed (setup.closed.eden _ good)
    refine .same ((copy_moves σ _).words_of_ne ?_)
    rintro offset rfl
    have place := visible.1
    omega
  | @redirect t shown slot good black =>
    by_cases same : s = t
    · subst same
      exact .redirected good black (update_self ..)
    · exact .same (update_of_ne same ..)
  | @clear t shown slot late weak dead =>
    by_cases same : s = t
    · subst same
      exact .cleared weak late dead (update_self ..)
    · exact .same (update_of_ne same ..)
  | _ => exact .same rfl

end

end ScanSteps
