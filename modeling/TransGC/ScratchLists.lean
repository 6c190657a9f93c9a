import Mathlib.Logic.Function.Basic
import TransGC.LinkedChains

/-!
# Sorting the scratch blocks

`sort_scratch_list` takes the smallest block off the unsorted list, again and again, and puts it in
front of the sorted one. The memory consists of the cells that a `ScratchBlock**` can point to: the
local variable with the unsorted list, and the `next` field of each block.
-/

namespace ScratchLists

open Function LinkedChains List

variable {Block : Type*}

inductive Cell (Block : Type*)
  | unsorted
  | next (block : Block)
  deriving DecidableEq

/-- What each cell points to. -/
abbrev Memory (Block : Type*) := Cell Block → Option Block

/-- The loop of `removeSmallestScratch`. The smallest block so far is given by the cell that points
to it and its size; `none` is `first`. There is no result if the loop does not end. -/
def findSmallest (numWords : Block → Nat) (mem : Memory Block) :
    Nat → Cell Block → Option Block → Option (Cell Block × Nat) → Option (Option (Cell Block × Nat))
  | 0, _, _, _ => none
  | _ + 1, _, none, smallest => some smallest
  | fuel + 1, prevPtr, some cur, smallest =>
    findSmallest numWords mem fuel (.next cur) (mem (.next cur))
      (if ∀ s ∈ smallest, numWords cur < s.2 then some (prevPtr, numWords cur) else smallest)

variable [DecidableEq Block]

/-- The removed block and the memory afterwards; no result for an empty list. -/
def removeSmallestScratch (numWords : Block → Nat) (fuel : Nat) (mem : Memory Block)
    (prevPtr : Cell Block) : Option (Block × Memory Block) := do
  let (smallestPtr, _) ← ← findSmallest numWords mem fuel prevPtr (mem prevPtr) none
  let smallest ← mem smallestPtr
  return (smallest, update mem smallestPtr (mem (.next smallest)))

def sortLoop (numWords : Block → Nat) :
    Nat → Memory Block → Option Block → Option (Memory Block × Option Block)
  | 0, _, _ => none
  | fuel + 1, mem, sorted =>
    if mem .unsorted = none then some (mem, sorted)
    else (removeSmallestScratch numWords (fuel + 1) mem .unsorted).bind fun (smallest, mem) =>
      sortLoop numWords fuel (update mem (.next smallest) sorted) (some smallest)

/-- The memory afterwards and the new value of `list`. -/
def sortScratchList (numWords : Block → Nat) (fuel : Nat) (mem : Memory Block)
    (list : Option Block) : Option (Memory Block × Option Block) :=
  sortLoop numWords fuel (update mem .unsorted list) none

variable {numWords : Block → Nat} {mem : Memory Block} {head : Option Block}
  {xs ys front back : List Block} {b : Block} {p : Cell Block}

/-- The blocks of a list, by the `next` fields in the memory. -/
def Listed (mem : Memory Block) : Option Block → List Block → Prop :=
  Chain fun block => mem (.next block)

/-- The cell that points to the block behind `front`, in a list that `p` points to. -/
def cellBehind : Cell Block → List Block → Cell Block
  | p, [] => p
  | _, x :: front => cellBehind (.next x) front

omit [DecidableEq Block] in
theorem cellBehind_ne {q : Cell Block} (first : p ≠ q) (others : ∀ x ∈ front, .next x ≠ q) :
    cellBehind p front ≠ q := by
  induction front generalizing p with
  | nil => exact first
  | cons x front ih => exact ih (others x (.head _)) fun y among => others y (.tail _ among)

theorem Listed.store (listed : Listed mem head xs) (other : ∀ x ∈ xs, p ≠ .next x)
    (v : Option Block) : Listed (update mem p v) head xs :=
  Chain.congr listed fun x mem => update_of_ne (other x mem).symm ..

theorem Listed.store_next (listed : Listed mem head xs) (fresh : b ∉ xs) (v : Option Block) :
    Listed (update mem (.next b) v) head xs :=
  listed.store (p := .next b) (fun _ among same => fresh (Cell.next.inj same ▸ among)) v

theorem Listed.push (listed : Listed mem head xs) (fresh : b ∉ xs) :
    Listed (update mem (.next b) head) (some b) (b :: xs) := by
  refine ⟨rfl, ?_⟩
  change Listed _ (update mem (.next b) head (.next b)) xs
  rw [update_self]
  exact listed.store_next fresh head

omit [DecidableEq Block] in
/-- The loop finds a smallest block, unless none is smaller than the one found before. -/
theorem findSmallest_spec (numWords : Block → Nat) {fuel : Nat} {cur : Option Block}
    (smallest : Option (Cell Block × Nat)) (listed : Listed mem cur xs) (enough : xs.length < fuel) :
    ∃ found, findSmallest numWords mem fuel p cur smallest = some found ∧
      (found = smallest ∧ (∀ x ∈ xs, ∃ s ∈ smallest, s.2 ≤ numWords x) ∨
        ∃ front b back, xs = front ++ b :: back ∧ found = some (cellBehind p front, numWords b) ∧
          (∀ x ∈ xs, numWords b ≤ numWords x) ∧ ∀ s ∈ smallest, numWords b < s.2) := by
  induction xs generalizing fuel p cur smallest with
  | nil =>
    obtain ⟨fuel, rfl⟩ := Nat.exists_eq_succ_of_ne_zero (Nat.ne_of_gt enough)
    obtain rfl : cur = none := listed
    exact ⟨smallest, rfl, .inl ⟨rfl, by simp⟩⟩
  | cons x xs ih =>
    obtain ⟨fuel, rfl⟩ := Nat.exists_eq_succ_of_ne_zero (Nat.ne_of_gt (Nat.zero_lt_of_lt enough))
    obtain ⟨rfl, rest⟩ := listed
    obtain ⟨found, runs, outcome⟩ := ih (p := .next x) _ rest (Nat.lt_of_succ_lt_succ enough)
    refine ⟨found, runs, ?_⟩
    split at outcome
    case isTrue less =>
      obtain ⟨rfl, atLeast⟩ | ⟨front, b, back, rfl, rfl, atMost, first⟩ := outcome
      · exact .inr ⟨[], x, xs, rfl, rfl, by simpa using atLeast, less⟩
      · have smaller : numWords b < numWords x := first _ rfl
        refine .inr ⟨x :: front, b, back, rfl, rfl, ?_, ?_⟩
        · exact forall_mem_cons.mpr ⟨Nat.le_of_lt smaller, atMost⟩
        · exact fun s found => Nat.lt_trans smaller (less s found)
    case isFalse notLess =>
      obtain ⟨s, found, le⟩ : ∃ s ∈ smallest, s.2 ≤ numWords x := by simpa using notLess
      obtain ⟨rfl, atLeast⟩ | ⟨front, b, back, rfl, rfl, atMost, first⟩ := outcome
      · exact .inl ⟨rfl, forall_mem_cons.mpr ⟨⟨s, found, le⟩, atLeast⟩⟩
      · refine .inr ⟨x :: front, b, back, rfl, rfl, ?_, first⟩
        exact forall_mem_cons.mpr ⟨Nat.le_trans (Nat.le_of_lt (first s found)) le, atMost⟩

theorem listed_remove (listed : Listed mem (mem p) (front ++ b :: back))
    (outside : ∀ x ∈ front ++ b :: back, p ≠ .next x) :
    mem (cellBehind p front) = some b ∧
      Listed (update mem (cellBehind p front) (mem (.next b)))
        (update mem (cellBehind p front) (mem (.next b)) p) (front ++ back) := by
  induction front generalizing p with
  | nil =>
    obtain ⟨here, rest⟩ := listed
    refine ⟨here, ?_⟩
    rw [cellBehind, update_self]
    exact Listed.store rest (fun x among => outside x (.tail _ among)) _
  | cons x front ih =>
    have nodup := nodup_cons.mp (Chain.nodup listed)
    obtain ⟨here, rest⟩ := listed
    obtain ⟨there, after⟩ := ih rest fun y among same => nodup.1 (Cell.next.inj same ▸ among)
    refine ⟨there, ?_, after⟩
    rw [update_of_ne, here]
    refine (cellBehind_ne (outside x (.head _)).symm fun y among => ?_).symm
    exact (outside y (.tail _ (mem_append_left _ among))).symm

/-- A smallest block is taken out of the unsorted list; the links of other blocks stay. -/
theorem removeSmallestScratch_spec (numWords : Block → Nat) {fuel : Nat}
    (listed : Listed mem (mem .unsorted) xs) (nonempty : xs ≠ []) (enough : xs.length < fuel) :
    ∃ b rest mem', removeSmallestScratch numWords fuel mem .unsorted = some (b, mem') ∧
      xs.Perm (b :: rest) ∧ (∀ x ∈ xs, numWords b ≤ numWords x) ∧
      Listed mem' (mem' .unsorted) rest ∧ ∀ y ∉ xs, mem' (.next y) = mem (.next y) := by
  obtain ⟨found, runs, outcome⟩ := findSmallest_spec numWords (p := .unsorted) none listed enough
  obtain ⟨-, below⟩ | ⟨front, b, back, rfl, rfl, atMost, -⟩ := outcome
  · obtain ⟨x, rest, rfl⟩ := exists_cons_of_ne_nil nonempty
    simpa using below x (.head _)
  · obtain ⟨points, after⟩ := listed_remove listed fun x among => nofun
    refine ⟨b, front ++ back, _, ?_, perm_middle, atMost, after, fun y other => ?_⟩
    · simp [removeSmallestScratch, runs, points]
    · apply update_of_ne
      apply Ne.symm
      apply cellBehind_ne
      · exact nofun
      · exact fun x among same => other (Cell.next.inj same ▸ mem_append_left _ among)

/-- The sorted list has what was taken out so far, and nothing larger than what is left. -/
theorem sortLoop_spec (numWords : Block → Nat) {fuel : Nat} {sorted : Option Block}
    (left : Listed mem (mem .unsorted) xs) (taken : Listed mem sorted ys) (apart : ∀ x ∈ xs, x ∉ ys)
    (above : ∀ x ∈ xs, ∀ y ∈ ys, numWords y ≤ numWords x)
    (ordered : ys.Pairwise fun x y => numWords y ≤ numWords x) (enough : xs.length < fuel) :
    ∃ mem' result zs, sortLoop numWords fuel mem sorted = some (mem', result) ∧
      Listed mem' result zs ∧ zs.Perm (xs ++ ys) ∧
      zs.Pairwise fun x y => numWords y ≤ numWords x := by
  induction fuel generalizing mem sorted xs ys with
  | zero => exact nomatch enough
  | succ fuel ih =>
    rw [sortLoop]
    split
    case isTrue empty =>
      obtain rfl : xs = [] := Chain.unique left empty
      exact ⟨mem, sorted, ys, rfl, taken, .refl _, ordered⟩
    case isFalse more =>
      have nonempty : xs ≠ [] := by
        rintro rfl
        exact more left
      obtain ⟨b, rest, mem', removes, parts, atMost, listed, frame⟩ :=
        removeSmallestScratch_spec numWords left nonempty enough
      have fresh : b ∉ rest := (nodup_cons.mp (parts.nodup_iff.mp (Chain.nodup left))).1
      have here : b ∈ xs := parts.mem_iff.mpr (.head _)
      have old : ∀ x ∈ rest, x ∈ xs := fun x among => parts.mem_iff.mpr (.tail _ among)
      have kept : Listed mem' sorted ys :=
        Chain.congr taken fun y among => frame y fun also => apart y also among
      rw [removes]
      have next := ih (listed.store_next fresh sorted) (kept.push (apart b here)) ?_ ?_ ?_ ?_
      · obtain ⟨mem'', result, zs, runs, sorts, perm, order⟩ := next
        refine ⟨mem'', result, zs, runs, sorts, perm.trans ?_, order⟩
        exact perm_middle.trans (parts.symm.append_right ys)
      · rintro x among (_ | ⟨_, also⟩)
        · exact fresh among
        · exact apart x (old x among) also
      · rintro x among y (_ | ⟨_, also⟩)
        · exact atMost x (old x among)
        · exact above x (old x among) y also
      · exact pairwise_cons.mpr ⟨above b here, ordered⟩
      · have := parts.length_eq
        rw [length_cons] at this
        omega

/-- For every finite list the sort ends, with the same blocks in non-increasing order of size. -/
theorem scratch_list_sorted (numWords : Block → Nat) (mem : Memory Block) (list : Option Block)
    (blocks : List Block) (listed : Listed mem list blocks) (fuel : Nat)
    (enough : blocks.length < fuel) :
    ∃ mem' result sorted, sortScratchList numWords fuel mem list = some (mem', result) ∧
      Listed mem' result sorted ∧ sorted.Perm blocks ∧
      sorted.Pairwise fun x y => numWords x ≥ numWords y := by
  have unsorted : Listed (update mem .unsorted list) (update mem .unsorted list .unsorted) blocks := by
    rw [update_self]
    exact listed.store (p := .unsorted) (fun x among => nofun) list
  have empty : Listed (update mem .unsorted list) none [] := rfl
  have spec := sortLoop_spec numWords unsorted empty (fun _ _ => nofun) (fun _ _ _ => nofun) .nil enough
  rwa [append_nil] at spec

/-- Three blocks, the smallest one first. -/
theorem three_blocks_sorted : ∃ mem' result sorted,
    sortScratchList id 4 (fun | .next 2 => some 5 | .next 5 => some 3 | _ => none) (some 2) =
      some (mem', result) ∧
    Listed mem' result sorted ∧ sorted.Perm [2, 5, 3] ∧ sorted.Pairwise fun x y => id x ≥ id y :=
  scratch_list_sorted id _ (some 2) [2, 5, 3] (by exact ⟨rfl, rfl, rfl, rfl⟩) 4 (by decide)

end ScratchLists
