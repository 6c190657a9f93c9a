import TransGC.ObjectHeap

/-!
# Moving objects

What a copying collection does to the memory, wherever it finds room. An object is copied to a free
address, the copy gets its mark, and the old place is forwarded to the new one; slots are redirected
one by one. `Image` relates the memory in any later state to the memory at the start. Only
`collected` objects are moved, and no copy goes to an address of what `stays`: the objects that are
collected, which may have to stay, and those that are not.
-/
namespace ObjectMoves
open MarkWord ObjectHeap Function List

/-- Two objects of the given sizes do not overlap. -/
def Apart (a size b size' : Nat) : Prop := a + size ≤ b ∨ b + size' ≤ a

/-- The object is copied, with a new mark, and the old place forwarded to the copy. -/
structure Moves (now after : Memory) (a target : Nat) (aged : Nat → Nat) : Prop where
  mark : ∀ b, after.mark b = if b = a then encodePointerAsMark (8 * target)
    else if b = target then aged (now.mark a) else now.mark b
  klass : ∀ b, after.klass b = if b = target then now.klass a else now.klass b
  words : after.words = (now.copy a target).words

/-- A slot outside the objects, or in one that stays. -/
def InPlace (stays : Nat → Prop) : Slot → Prop
  | .field obj _ => stays obj
  | _ => True

variable {μ : Type}

/-- The memory after the objects in `moved` have gone from their origin to their target. A slot
`carries` its old value to the new one, or is a weak one that was cleared. -/
structure Image (origin target : μ → Nat) (aged : μ → Nat → Nat) (collected stays : Nat → Prop)
    (carries : Nat → Nat → Prop) (weak : Slot → Prop) (weakCopy : μ → Nat → Prop)
    (start now : Memory) (moved : List μ) : Prop where
  source : ∀ m ∈ moved,
    collected (origin m) ∧ now.mark (origin m) = encodePointerAsMark (8 * target m)
  elsewhere : ∀ m ∈ moved, ¬ stays (target m)
  apart : moved.Pairwise fun m n => origin m ≠ origin n ∧
    Apart (target m) (start.klass (origin m)).size (target n) (start.klass (origin n)).size
  copyKlass : ∀ m ∈ moved, now.klass (target m) = start.klass (origin m)
  copyMark : ∀ m ∈ moved, now.mark (target m) = aged m (start.mark (origin m))
  copySlots : ∀ m ∈ moved, ∀ offset,
    carries (start.words (.field (origin m) offset)) (now.words (.field (target m) offset)) ∨
      weakCopy m offset ∧ now.words (.field (target m) offset) = 0
  copyData : ∀ m ∈ moved, ∀ offset, offset ∉ (start.klass (origin m)).slots →
    now.words (.field (target m) offset) = start.words (.field (origin m) offset)
  klass : ∀ a, stays a → now.klass a = start.klass a
  mark : ∀ a, stays a → (collected a → now.isForwarded a = false) → now.mark a = start.mark a
  untouched : ∀ a, collected a → now.isForwarded a = false → ∀ offset,
    now.words (.field a offset) = start.words (.field a offset)
  words : ∀ s, InPlace stays s → carries (start.words s) (now.words s) ∨ weak s ∧ now.words s = 0
  data : ∀ obj, stays obj → ∀ offset, offset ∉ (start.klass obj).slots →
    now.words (.field obj offset) = start.words (.field obj offset)

/-- Collected objects have a place of their own, which is not empty. -/
structure Layout (collected stays : Nat → Prop) (start : Memory) : Prop where
  stays : ∀ a, collected a → stays a
  sized : ∀ a, collected a → 0 < (start.klass a).size

/-- The object has not been moved, and nothing lies where its copy goes. -/
structure Movable (origin target : μ → Nat) (collected stays : Nat → Prop) (start now : Memory)
    (moved : List μ) (m : μ) : Prop where
  good : collected (origin m)
  white : now.isForwarded (origin m) = false
  vacant : ¬ stays (target m)
  apart : ∀ n ∈ moved,
    Apart (target n) (start.klass (origin n)).size (target m) (start.klass (origin m)).size

section Pointwise

variable {now after : Memory} {a b target : Nat} {aged : Nat → Nat} {s : Slot}

theorem isForwarded_of_mark (pointer : now.mark a = encodePointerAsMark (8 * target)) :
    now.isForwarded a = true := by
  simp [Memory.isForwarded, pointer]

variable (moves : Moves now after a target aged)
include moves

theorem Moves.mark_self : after.mark a = encodePointerAsMark (8 * target) := by
  rw [moves.mark, if_pos rfl]

theorem Moves.mark_of_ne (first : b ≠ a) (second : b ≠ target) : after.mark b = now.mark b := by
  rw [moves.mark, if_neg first, if_neg second]

theorem Moves.field (b offset : Nat) : after.words (.field b offset) =
    if b = target then now.words (.field a offset) else now.words (.field b offset) := by
  rw [moves.words]
  rfl

theorem Moves.words_of_ne (other : ∀ offset, s ≠ .field target offset) :
    after.words s = now.words s := by
  cases s with
  | field obj offset =>
    have distinct : obj ≠ target := fun same => other offset (by rw [same])
    rw [moves.field, if_neg distinct]
  | _ =>
    rw [moves.words]
    rfl

end Pointwise

variable {origin target : μ → Nat} {aged : μ → Nat → Nat} {collected stays : Nat → Prop}
  {carries carries' : Nat → Nat → Prop} {weak : Slot → Prop} {weakCopy : μ → Nat → Prop}
  {start now after : Memory} {moved : List μ} {m n : μ} {a : Nat} {s : Slot}

theorem image_start (refl : ∀ value, carries value value) :
    Image origin target aged collected stays carries weak weakCopy start start [] where
  source := by simp
  elsewhere := by simp
  apart := .nil
  copyKlass := by simp
  copyMark := by simp
  copySlots := by simp
  copyData := by simp
  klass := fun _ _ => rfl
  mark := fun _ _ _ => rfl
  untouched := fun _ _ _ _ => rfl
  words := fun _ _ => .inl (refl _)
  data := fun _ _ _ _ => rfl

section

variable (image : Image origin target aged collected stays carries weak weakCopy start now moved)
include image

theorem Image.origins_nodup : (moved.map origin).Nodup :=
  pairwise_map.mpr (image.apart.imp And.left)

theorem Image.targets_nodup (layout : Layout collected stays start) : (moved.map target).Nodup := by
  refine pairwise_map.mpr (image.apart.imp_of_mem fun first second apart same => ?_)
  have above := layout.sized _ (image.source _ first).1
  have below := layout.sized _ (image.source _ second).1
  have ranges := apart.2
  rw [Apart] at ranges
  omega

end

/-! ### One more object is moved -/

theorem forall_mem_concat {p : μ → Prop} (earlier : ∀ n ∈ moved, p n) (last : p m) :
    ∀ n ∈ moved ++ [m], p n :=
  forall_mem_append.mpr ⟨earlier, forall_mem_singleton.mpr last⟩

section Move

variable
  (image : Image origin target aged collected stays carries weak weakCopy start now moved)
  (layout : Layout collected stays start)
  (movable : Movable origin target collected stays start now moved m)
  (moves : Moves now after (origin m) (target m) (aged m))

include movable

theorem Movable.stays_ne (place : stays a) : a ≠ target m := by
  rintro rfl
  exact movable.vacant place

include moves in
/-- What is white after the move was so before, and it is not the object that moved. -/
theorem Movable.white_before (place : stays a) (clean : after.isForwarded a = false) :
    a ≠ origin m ∧ now.isForwarded a = false := by
  have other : a ≠ origin m := by
    rintro rfl
    rw [isForwarded_of_mark moves.mark_self] at clean
    cases clean
  rw [Memory.isForwarded, moves.mark_of_ne other (movable.stays_ne place)] at clean
  exact ⟨other, clean⟩

include image

theorem Image.origin_ne (listed : n ∈ moved) : origin n ≠ origin m := by
  intro same
  have black := isForwarded_of_mark (image.source n listed).2
  rw [same, movable.white] at black
  cases black

include layout in
theorem Image.target_ne (listed : n ∈ moved) : target n ≠ target m ∧ target n ≠ origin m := by
  refine ⟨fun same => ?_, fun same => image.elsewhere n listed ?_⟩
  · have first := layout.sized _ (image.source n listed).1
    have second := layout.sized _ movable.good
    have apart := movable.apart n listed
    rw [Apart, same] at apart
    omega
  · rw [same]
    exact layout.stays _ movable.good

include moves

theorem Image.move_mark (place : stays a) (clean : collected a → after.isForwarded a = false) :
    after.mark a = start.mark a := by
  have other : a ≠ origin m := by
    rintro rfl
    exact (movable.white_before moves place (clean movable.good)).1 rfl
  rw [moves.mark_of_ne other (movable.stays_ne place)]
  exact image.mark a place fun good => (movable.white_before moves place (clean good)).2

theorem Image.move_words (mono : ∀ {old new}, carries old new → carries' old new)
    (place : InPlace stays s) :
    carries' (start.words s) (after.words s) ∨ weak s ∧ after.words s = 0 := by
  have other : ∀ offset, s ≠ .field (target m) offset := by
    rintro offset rfl
    exact movable.vacant place
  rw [moves.words_of_ne other]
  exact (image.words s place).imp_left mono

/-- The copy has the words that the object had at the start. -/
theorem Image.move_copy (offset : Nat) :
    after.words (.field (target m) offset) = start.words (.field (origin m) offset) := by
  rw [moves.field, if_pos rfl]
  exact image.untouched _ movable.good movable.white offset

include layout

theorem Image.move_source : ∀ n ∈ moved ++ [m],
    collected (origin n) ∧ after.mark (origin n) = encodePointerAsMark (8 * target n) := by
  refine forall_mem_concat (fun n listed => ?_) ⟨movable.good, moves.mark_self⟩
  obtain ⟨good, pointer⟩ := image.source n listed
  rw [moves.mark_of_ne (image.origin_ne movable listed) (movable.stays_ne (layout.stays _ good))]
  exact ⟨good, pointer⟩

theorem Image.move_copyKlass :
    ∀ n ∈ moved ++ [m], after.klass (target n) = start.klass (origin n) := by
  refine forall_mem_concat (fun n listed => ?_) ?_
  · rw [moves.klass, if_neg (image.target_ne layout movable listed).1]
    exact image.copyKlass n listed
  · rw [moves.klass, if_pos rfl]
    exact image.klass _ (layout.stays _ movable.good)

theorem Image.move_copyMark :
    ∀ n ∈ moved ++ [m], after.mark (target n) = aged n (start.mark (origin n)) := by
  have place := layout.stays _ movable.good
  refine forall_mem_concat (fun n listed => ?_) ?_
  · obtain ⟨first, second⟩ := image.target_ne layout movable listed
    rw [moves.mark_of_ne second first]
    exact image.copyMark n listed
  · rw [moves.mark, if_neg (movable.stays_ne place).symm, if_pos rfl,
      image.mark _ place fun _ => movable.white]

theorem Image.move_copies (listed : n ∈ moved) (offset : Nat) :
    after.words (.field (target n) offset) = now.words (.field (target n) offset) := by
  rw [moves.field, if_neg (image.target_ne layout movable listed).1]

theorem Image.move_untouched (good : collected a) (clean : after.isForwarded a = false)
    (offset : Nat) : after.words (.field a offset) = start.words (.field a offset) := by
  have place := layout.stays a good
  rw [moves.field, if_neg (movable.stays_ne place)]
  exact image.untouched a good (movable.white_before moves place clean).2 offset

theorem Image.move (refl : ∀ value, carries' value value)
    (mono : ∀ {old new}, carries old new → carries' old new) :
    Image origin target aged collected stays carries' weak weakCopy start after (moved ++ [m]) where
  source := image.move_source layout movable moves
  elsewhere := forall_mem_concat image.elsewhere movable.vacant
  apart := by
    refine pairwise_append.mpr ⟨image.apart, pairwise_singleton _ _, fun n listed => ?_⟩
    exact forall_mem_singleton.mpr ⟨image.origin_ne movable listed, movable.apart n listed⟩
  copyKlass := image.move_copyKlass layout movable moves
  copyMark := image.move_copyMark layout movable moves
  copySlots := by
    refine forall_mem_concat (fun n listed offset => ?_) fun offset => ?_
    · rw [image.move_copies layout movable moves listed]
      exact (image.copySlots n listed offset).imp_left mono
    · rw [image.move_copy movable moves]
      exact .inl (refl _)
  copyData := by
    refine forall_mem_concat (fun n listed offset noSlot => ?_) fun offset _ => ?_
    · rw [image.move_copies layout movable moves listed]
      exact image.copyData n listed offset noSlot
    · exact image.move_copy movable moves offset
  klass := by
    intro a place
    rw [moves.klass, if_neg (movable.stays_ne place)]
    exact image.klass a place
  mark := fun _ => image.move_mark movable moves
  untouched := fun _ => image.move_untouched layout movable moves
  words := fun _ => image.move_words movable moves mono
  data := by
    intro obj place offset noSlot
    rw [moves.field, if_neg (movable.stays_ne place)]
    exact image.data obj place offset noSlot

end Move

/-! ### A slot is written -/

/-- The slot does not lie in an object that is still to be moved, and it is a reference. -/
def Touchable (collected : Nat → Prop) (now : Memory) : Slot → Prop
  | .field obj offset =>
    (collected obj → now.isForwarded obj = true) ∧ offset ∈ (now.klass obj).slots
  | _ => True

section Store

variable {value obj offset : Nat} (touchable : Touchable collected now s)

theorem store_self : (now.store s value).words s = value := update_self ..

theorem store_of_ne {t : Slot} (other : t ≠ s) : (now.store s value).words t = now.words t :=
  update_of_ne other ..

include touchable

theorem Touchable.store_data (noSlot : offset ∉ (now.klass obj).slots) :
    (now.store s value).words (.field obj offset) = now.words (.field obj offset) := by
  refine store_of_ne ?_
  rintro rfl
  exact noSlot touchable.2

theorem Touchable.store_untouched (good : collected obj) (white : now.isForwarded obj = false) :
    (now.store s value).words (.field obj offset) = now.words (.field obj offset) := by
  refine store_of_ne ?_
  rintro rfl
  rw [touchable.1 good] at white
  cases white

/-- The new value carries on what the slot carried, or clears it. -/
theorem Image.store
    (image : Image origin target aged collected stays carries weak weakCopy start now moved)
    (inCopy : ∀ m ∈ moved, ∀ offset, s = .field (target m) offset → ∀ old,
      carries old (now.words s) → carries old value ∨ weakCopy m offset ∧ value = 0)
    (inPlace : InPlace stays s → ∀ old,
      carries old (now.words s) → carries old value ∨ weak s ∧ value = 0)
    (cleared : now.words s = 0 → value = 0) :
    Image origin target aged collected stays carries weak weakCopy start (now.store s value)
      moved :=
  { image with
    copySlots := by
      intro m listed offset
      by_cases same : Slot.field (target m) offset = s
      · subst same
        rw [store_self]
        rcases image.copySlots m listed offset with carried | ⟨weak, zero⟩
        · exact inCopy m listed offset rfl _ carried
        · exact .inr ⟨weak, cleared zero⟩
      · rw [store_of_ne same]
        exact image.copySlots m listed offset
    copyData := by
      intro m listed offset noSlot
      rw [touchable.store_data (by rwa [image.copyKlass m listed])]
      exact image.copyData m listed offset noSlot
    untouched := fun a good white offset =>
      (touchable.store_untouched good white).trans (image.untouched a good white offset)
    words := by
      intro t place
      by_cases same : t = s
      · subst same
        rw [store_self]
        rcases image.words t place with carried | ⟨weak, zero⟩
        · exact inPlace place _ carried
        · exact .inr ⟨weak, cleared zero⟩
      · rw [store_of_ne same]
        exact image.words t place
    data := by
      intro obj place offset noSlot
      rw [touchable.store_data (by rwa [image.klass obj place])]
      exact image.data obj place offset noSlot }

end Store

end ObjectMoves
