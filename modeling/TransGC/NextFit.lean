import Mathlib.Data.List.Infix
import Mathlib.Order.Nat
import Mathlib.Tactic.Common

/-!
# Next-fit placement over address ranges

Blocks are placed one after the other into a sequence of bins, each bin an address range. A
cursor stands in one bin and never goes back: a block that does not fit above the cursor is tried
at the bottom of the next bin. Blocks which tile the lower part of a bin always find room when
the cursor stands in that bin, no higher than they do, or before it.
-/
namespace NextFit
open List
universe u

structure Cursor (ι : Type u) where
  bin : ι
  top : Nat
  rest : List ι

variable {ι : Type u} (bottom limit : ι → Nat)

def placeFrom (size : Nat) : ι → Nat → List ι → Option (Nat × Cursor ι)
  | bin, top, [] =>
    if top + size ≤ limit bin then some (top, ⟨bin, top + size, []⟩) else none
  | bin, top, next :: rest =>
    if top + size ≤ limit bin then some (top, ⟨bin, top + size, next :: rest⟩)
    else placeFrom size next (bottom next) rest

/-- The address of the next block and the cursor behind it. -/
def place (c : Cursor ι) (size : Nat) : Option (Nat × Cursor ι) :=
  placeFrom bottom limit size c.bin c.top c.rest

def placeAll : Cursor ι → List Nat → Option (Cursor ι)
  | c, [] => some c
  | c, size :: sizes => (place bottom limit c size).bind fun placed => placeAll placed.2 sizes

/-- The addresses that placements from `c` can still use. -/
def Free (c : Cursor ι) (a : Nat) : Prop :=
  (c.top ≤ a ∧ a < limit c.bin) ∨ ∃ b ∈ c.rest, bottom b ≤ a ∧ a < limit b

/-- No address lies in two of the bins ahead, and the cursor stands in its own. -/
structure Sound (c : Cursor ι) : Prop where
  above : bottom c.bin ≤ c.top
  apart : (c.bin :: c.rest).Pairwise fun b b' =>
    ∀ a, bottom b ≤ a → a < limit b → bottom b' ≤ a → limit b' ≤ a

/-- The cursor is in a bin before `b`, or in `b` and not past the address `q`. -/
def Reaches (c : Cursor ι) (b : ι) (q : Nat) : Prop :=
  (c.bin = b ∧ c.top ≤ q) ∨ b ∈ c.rest

variable {bottom limit} {c c' : Cursor ι} {b : ι} {size d q a : Nat} {sizes : List Nat}

/-- Where a placed block lies: behind the last one, or at the bottom of a later bin. -/
inductive Landing (bottom : ι → Nat) (c : Cursor ι) (d : Nat) (c' : Cursor ι) : Prop
  | here (bin : c'.bin = c.bin) (start : d = c.top) (rest : c'.rest = c.rest)
  | later (start : d = bottom c'.bin) (passed : List ι)
      (split : c.rest = passed ++ c'.bin :: c'.rest)

theorem place_of_fits (fits : c.top + size ≤ limit c.bin) :
    place bottom limit c size = some (c.top, ⟨c.bin, c.top + size, c.rest⟩) := by
  rcases c with ⟨bin, top, _ | ⟨next, rest⟩⟩
  · exact if_pos fits
  · exact if_pos fits

theorem place_of_full {next : ι} {rest : List ι} (ahead : c.rest = next :: rest)
    (full : ¬ c.top + size ≤ limit c.bin) :
    place bottom limit c size = place bottom limit ⟨next, bottom next, rest⟩ size := by
  rcases c with ⟨bin, top, ahead'⟩
  subst ahead
  simp [place, placeFrom, full]

theorem place_of_last (ahead : c.rest = []) (full : ¬ c.top + size ≤ limit c.bin) :
    place bottom limit c size = none := by
  rcases c with ⟨bin, top, ahead'⟩
  subst ahead
  simpa [place, placeFrom] using full

section Place

variable (sound : Sound bottom limit c) (placed : place bottom limit c size = some (d, c'))
include placed

theorem place_landing : c'.top = d + size ∧ d + size ≤ limit c'.bin ∧ Landing bottom c d c' := by
  obtain ⟨bin, top, rest⟩ := c
  induction rest generalizing bin top with
  | nil =>
    by_cases fits : top + size ≤ limit bin
    · rw [place_of_fits fits] at placed
      cases placed
      exact ⟨rfl, fits, .here rfl rfl rfl⟩
    · rw [place_of_last rfl fits] at placed
      cases placed
  | cons next rest ih =>
    by_cases fits : top + size ≤ limit bin
    · rw [place_of_fits fits] at placed
      cases placed
      exact ⟨rfl, fits, .here rfl rfl rfl⟩
    · rw [place_of_full rfl fits] at placed
      obtain ⟨top', bound, landing⟩ := ih _ _ placed
      refine ⟨top', bound, ?_⟩
      cases landing with
      | here bin start ahead =>
        have at_next : c'.bin = next := bin
        have same : c'.rest = rest := ahead
        exact .later (at_next ▸ start) [] (by simp [at_next, same])
      | later start passed split =>
        exact .later start (next :: passed) (by simpa using split)

/-! ### Disjointness -/

theorem free_of_place (inside : d ≤ a ∧ a < d + size) : Free bottom limit c a := by
  obtain ⟨-, bound, landing⟩ := place_landing placed
  cases landing with
  | here bin start rest =>
    rw [bin] at bound
    exact .inl ⟨by omega, by omega⟩
  | later start passed split =>
    exact .inr ⟨c'.bin, by simp [split], by omega, by omega⟩

theorem free_of_free_after (free : Free bottom limit c' a) : Free bottom limit c a := by
  obtain ⟨top, -, landing⟩ := place_landing placed
  cases landing with
  | here bin start rest =>
    rcases free with ⟨above, below⟩ | ⟨b, ahead, range⟩
    · exact .inl ⟨by omega, bin ▸ below⟩
    · exact .inr ⟨b, rest ▸ ahead, range⟩
  | later start passed split =>
    rcases free with ⟨above, below⟩ | ⟨b, ahead, range⟩
    · exact .inr ⟨c'.bin, by simp [split], by omega, below⟩
    · exact .inr ⟨b, by simp [split, ahead], range⟩

theorem bins_of_place (ahead : b ∈ c'.bin :: c'.rest) : b ∈ c.bin :: c.rest := by
  obtain ⟨-, -, landing⟩ := place_landing placed
  cases landing with
  | here bin start rest => rwa [bin, rest] at ahead
  | later start passed split =>
    rw [split]
    exact mem_cons_of_mem _ (mem_append_right passed ahead)

theorem rest_suffix : c'.rest <:+ c.rest := by
  obtain ⟨-, -, landing⟩ := place_landing placed
  cases landing with
  | here bin start rest => rw [rest]
  | later start passed split =>
    rw [split]
    exact (suffix_cons c'.bin c'.rest).trans (suffix_append passed _)

include sound

theorem Sound.place : Sound bottom limit c' := by
  obtain ⟨top, -, landing⟩ := place_landing placed
  have above := sound.above
  have apart := sound.apart
  cases landing with
  | here bin start rest => exact ⟨by rw [bin]; omega, by rwa [bin, rest]⟩
  | later start passed split =>
    rw [split, pairwise_cons, pairwise_append] at apart
    exact ⟨by omega, apart.2.2.1⟩

/-- A placed block lies inside the bin where the cursor then stands. -/
theorem place_inside : bottom c'.bin ≤ d ∧ d + size ≤ limit c'.bin ∧ c'.bin ∈ c.bin :: c.rest := by
  obtain ⟨-, bound, landing⟩ := place_landing placed
  have above := sound.above
  cases landing with
  | here bin start rest =>
    rw [bin] at bound ⊢
    exact ⟨by omega, bound, mem_cons_self⟩
  | later start passed split => exact ⟨by omega, bound, by simp [split]⟩

theorem not_free_after (inside : d ≤ a ∧ a < d + size) : ¬ Free bottom limit c' a := by
  have after := sound.place placed
  have top := (place_landing placed).1
  obtain ⟨low, high, -⟩ := place_inside sound placed
  rintro (⟨above, below⟩ | ⟨b, ahead, lowB, highB⟩)
  · omega
  · have apart := (pairwise_cons.mp after.apart).1 b ahead a (by omega) (by omega) lowB
    omega

end Place

/-! ### A bin's own blocks -/

/-- A block that tiles `b` up from `q` finds room, at or before its own place. -/
theorem place_of_reaches (reaches : Reaches c b q) (low : bottom b ≤ q)
    (room : q + size ≤ limit b) :
    ∃ d c', place bottom limit c size = some (d, c') ∧ Reaches c' b (q + size) := by
  obtain ⟨bin, top, rest⟩ := c
  induction rest generalizing bin top with
  | nil =>
    rcases reaches with ⟨same, notPast⟩ | absent
    · obtain rfl : bin = b := same
      have fits : top + size ≤ limit bin := (Nat.add_le_add_right notPast size).trans room
      exact ⟨_, _, place_of_fits fits, .inl ⟨rfl, Nat.add_le_add_right notPast size⟩⟩
    · cases absent
  | cons next rest ih =>
    by_cases fits : top + size ≤ limit bin
    · refine ⟨_, _, place_of_fits fits, ?_⟩
      rcases reaches with ⟨same, notPast⟩ | ahead
      · exact .inl ⟨same, Nat.add_le_add_right notPast size⟩
      · exact .inr ahead
    · rw [place_of_full rfl fits]
      apply ih
      rcases reaches with ⟨same, notPast⟩ | ahead
      · obtain rfl : bin = b := same
        exact absurd ((Nat.add_le_add_right notPast size).trans room) fits
      · rcases mem_cons.mp ahead with rfl | later
        · exact .inl ⟨rfl, low⟩
        · exact .inr later

/-! ### Sequences of blocks -/

@[simp] theorem placeAll_nil : placeAll bottom limit c [] = some c := rfl

theorem placeAll_cons_eq_some :
    placeAll bottom limit c (size :: sizes) = some c' ↔
      ∃ d m, place bottom limit c size = some (d, m) ∧ placeAll bottom limit m sizes = some c' := by
  simp [placeAll, Option.bind_eq_some_iff]

theorem placeAll_append {more : List Nat} :
    placeAll bottom limit c (sizes ++ more) =
      (placeAll bottom limit c sizes).bind fun m => placeAll bottom limit m more := by
  induction sizes generalizing c with
  | nil => rfl
  | cons size sizes ih => simp [placeAll, Option.bind_assoc, ih]

theorem placeAll_rest_suffix (placed : placeAll bottom limit c sizes = some c') :
    c'.rest <:+ c.rest := by
  induction sizes generalizing c with
  | nil =>
    cases placed
    exact suffix_rfl
  | cons size sizes ih =>
    obtain ⟨d, m, first, others⟩ := placeAll_cons_eq_some.mp placed
    exact (ih others).trans (rest_suffix first)

section Truncation

variable {bin : ι} {top : Nat} {near far : List ι}

theorem place_extend (placed : place bottom limit ⟨bin, top, near⟩ size = some (d, c')) :
    place bottom limit ⟨bin, top, near ++ far⟩ size =
      some (d, ⟨c'.bin, c'.top, c'.rest ++ far⟩) := by
  induction near generalizing bin top with
  | nil =>
    by_cases fits : top + size ≤ limit bin
    · rw [place_of_fits fits] at placed ⊢
      cases placed
      rfl
    · rw [place_of_last rfl fits] at placed
      cases placed
  | cons next near ih =>
    by_cases fits : top + size ≤ limit bin
    · rw [place_of_fits fits] at placed ⊢
      cases placed
      rfl
    · rw [place_of_full rfl fits] at placed
      rw [cons_append, place_of_full rfl fits]
      exact ih placed

theorem place_truncate
    (placed : place bottom limit ⟨bin, top, near ++ far⟩ size = some (d, c'))
    (unused : far.length ≤ c'.rest.length) :
    ∃ left, c'.rest = left ++ far ∧
      place bottom limit ⟨bin, top, near⟩ size = some (d, ⟨c'.bin, c'.top, left⟩) := by
  induction near generalizing bin top with
  | nil =>
    by_cases fits : top + size ≤ limit bin
    · rw [place_of_fits fits] at placed ⊢
      cases placed
      exact ⟨[], rfl, rfl⟩
    · -- the block went into one of the far bins, so fewer of them are left
      cases far with
      | nil =>
        rw [place_of_last rfl fits] at placed
        cases placed
      | cons next far =>
        rw [nil_append, place_of_full rfl fits] at placed
        have shorter := (rest_suffix placed).length_le
        rw [length_cons] at unused
        dsimp only at shorter
        omega
  | cons next near ih =>
    by_cases fits : top + size ≤ limit bin
    · rw [place_of_fits fits] at placed ⊢
      cases placed
      exact ⟨next :: near, rfl, rfl⟩
    · rw [cons_append, place_of_full rfl fits] at placed
      rw [place_of_full rfl fits]
      exact ih placed

/-- Bins behind the ones that are used make no difference. -/
theorem placeAll_append_rest :
    (∃ c', placeAll bottom limit ⟨bin, top, near⟩ sizes = some c') ↔
      ∃ c', placeAll bottom limit ⟨bin, top, near ++ far⟩ sizes = some c' ∧
        far.length ≤ c'.rest.length := by
  induction sizes generalizing bin top near with
  | nil => simp
  | cons size sizes ih =>
    simp only [placeAll_cons_eq_some]
    constructor
    · rintro ⟨c', d, m, first, others⟩
      obtain ⟨c', all, unused⟩ := ih.mp ⟨c', others⟩
      exact ⟨c', ⟨d, _, place_extend first, all⟩, unused⟩
    · rintro ⟨c', ⟨d, ⟨mid, midTop, midRest⟩, first, others⟩, unused⟩
      obtain ⟨left, split, short⟩ :=
        place_truncate first (unused.trans (placeAll_rest_suffix others).length_le)
      subst split
      obtain ⟨c', all⟩ := ih.mpr ⟨c', others, unused⟩
      exact ⟨c', d, _, short, all⟩

end Truncation

end NextFit
