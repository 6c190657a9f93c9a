import Mathlib.Data.List.Pairwise
import TransGC.MemRegions
import TransGC.CardTable

/-!
# The regions of the cards that are not clean

`non_clean_card_iterate_work` walks the cards of a region downwards, once for each covered region,
and hands each maximal run of cards that are not clean to its closure, clipped to the part that
is covered. A card is named by its index; the closure is the sequence of the regions it is given.
-/

namespace NonCleanCards

open CardTable List

/-- The table: the value of each card. -/
abbrev Cards := Nat → Int

/-- How many of the cards `limit + n - 1`, `limit + n - 2`, … down to `limit` are not clean before
the first clean one. -/
def dirtyBelow (cards : Cards) (limit : Nat) : Nat → Nat
  | 0 => 0
  | n + 1 => if cards (limit + n) ≠ cleanCard then dirtyBelow cards limit n + 1 else 0

/-- Clean the dirty and the precleaned ones of `count` cards from `first` on. -/
def cleanRun (transGC : Bool) (cards : Cards) (first : Nat) : Nat → Cards
  | 0 => cards
  | count + 1 =>
    let cards := cleanRun transGC cards first count
    if cardIsDirtyWrtGenIter (cards (first + count)) then
      if !transGC then Function.update cards (first + count) cleanCard else cards
    else cards

/-- The cards after a walk and the regions that were handed to the closure, in order. -/
structure Walk where
  cards : Cards
  handed : List MemRegion

/-- The flags and sizes that one walk reads. -/
structure Setting where
  transGC : Bool
  cardSizeInWords : Nat
  positive : 0 < cardSizeInWords

namespace Setting

def cardFor (setting : Setting) (a : Nat) : Nat := a / setting.cardSizeInWords

def addrFor (setting : Setting) (c : Nat) : Nat := c * setting.cardSizeInWords

end Setting

/-- The outer loop, with `n` cards from `limit` on left. Each round takes a card, so that as much
fuel as there are cards is enough. -/
def walkDown (setting : Setting) (clear : Bool) (mri : MemRegion) (limit : Nat) :
    Nat → Nat → Cards → Walk
  | 0, _, cards => ⟨cards, []⟩
  | _ + 1, 0, cards => ⟨cards, []⟩
  | fuel + 1, n + 1, cards =>
    if cards (limit + n) ≠ cleanCard then
      let more := dirtyBelow cards limit n
      let first := limit + n - more
      let curCards : MemRegion := ⟨setting.addrFor first, (more + 1) * setting.cardSizeInWords⟩
      let dirtyRegion := curCards.intersection mri
      let cards := if clear then cleanRun setting.transGC cards first (more + 1) else cards
      let rest := walkDown setting clear mri limit fuel (n - more) cards
      ⟨rest.cards, dirtyRegion :: rest.handed⟩
    else walkDown setting clear mri limit fuel n cards

/-- The part of `mr` in one covered region. -/
def walkCovered (setting : Setting) (clear : Bool) (mr covered : MemRegion) (cards : Cards) :
    Walk :=
  let mri := mr.intersection covered
  if mri.wordSize > 0 then
    let limit := setting.cardFor mri.start
    let n := setting.cardFor mri.last + 1 - limit
    walkDown setting clear mri limit n n cards
  else ⟨cards, []⟩

def walkAll (setting : Setting) (clear : Bool) (mr : MemRegion) :
    List MemRegion → Cards → Walk
  | [], cards => ⟨cards, []⟩
  | covered :: rest, cards =>
    let here := walkCovered setting clear mr covered cards
    let later := walkAll setting clear mr rest here.cards
    ⟨later.cards, here.handed ++ later.handed⟩

/-- Under TransGC the caller's wish to clear the cards is overruled. -/
def nonCleanCardIterateWork (setting : Setting) (clear : Bool) (mr : MemRegion)
    (covered : List MemRegion) (cards : Cards) : Walk :=
  let clear := if setting.transGC then (if clear then false else clear) else clear
  walkAll setting clear mr covered cards

variable {setting : Setting} {clear transGC clears : Bool} {cards : Cards} {mr mri : MemRegion}
  {limit n c : Nat} {covered : List MemRegion} {walk : Walk}

/-- A word lies on one of a run of cards exactly if it is in the region of the run. -/
theorem contains_run (first count a : Nat) :
    (⟨setting.addrFor first, count * setting.cardSizeInWords⟩ : MemRegion).Contains a ↔
      first ≤ setting.cardFor a ∧ setting.cardFor a < first + count := by
  simp only [MemRegion.contains_iff, Setting.addrFor, Setting.cardFor]
  rw [Nat.le_div_iff_mul_le setting.positive, Nat.div_lt_iff_lt_mul setting.positive, add_mul]

theorem dirtyBelow_le (cards : Cards) (limit n : Nat) : dirtyBelow cards limit n ≤ n := by
  induction n with
  | zero => exact le_refl 0
  | succ n ih =>
    rw [dirtyBelow]
    split
    · exact Nat.succ_le_succ ih
    · exact Nat.zero_le _

theorem dirtyBelow_ne_clean (low : limit + (n - dirtyBelow cards limit n) ≤ c)
    (high : c < limit + n) : cards c ≠ cleanCard := by
  induction n with
  | zero => omega
  | succ n ih =>
    rw [dirtyBelow] at low
    split at low
    next dirty =>
      by_cases top : c = limit + n
      · exact top ▸ dirty
      · exact ih (by omega) (by omega)
    next => omega

/-- The table in which the dirty and the precleaned cards among those from `low` to `high`
are clean. -/
def cleaned (clears : Bool) (cards : Cards) (low high c : Nat) : Int :=
  if clears ∧ low ≤ c ∧ c < high ∧ cardIsDirtyWrtGenIter (cards c) then cleanCard else cards c

theorem cleaned_false (low high c : Nat) : cleaned false cards low high c = cards c :=
  if_neg fun held => Bool.false_ne_true held.1

theorem cleaned_outside {low high : Nat} (outside : c < low ∨ high ≤ c) :
    cleaned clears cards low high c = cards c := by
  refine if_neg ?_
  rintro ⟨-, above, below, -⟩
  omega

/-- Two adjacent stretches of cards are cleaned one after the other. -/
theorem cleaned_adjacent {cards' : Cards} {low middle high : Nat} (first : low ≤ middle)
    (second : middle ≤ high) (upper : ∀ c, cards' c = cleaned clears cards middle high c)
    (c : Nat) : cleaned clears cards' low middle c = cleaned clears cards low high c := by
  by_cases lower : c < middle
  · have same : cards' c = cards c := (upper c).trans (cleaned_outside (Or.inl lower))
    have bounds : c < middle ↔ c < high := ⟨fun _ => by omega, fun _ => lower⟩
    simp only [cleaned, same, bounds]
  · rw [cleaned_outside (Or.inr (le_of_not_gt lower)), upper c]
    have bounds : middle ≤ c ↔ low ≤ c := ⟨fun _ => by omega, fun _ => le_of_not_gt lower⟩
    simp only [cleaned, bounds]

theorem cleanRun_eq (first count c : Nat) :
    cleanRun transGC cards first count c = cleaned (!transGC) cards first (first + count) c := by
  induction count generalizing c with
  | zero => exact (cleaned_outside (by omega)).symm
  | succ count ih =>
    have top : cleanRun transGC cards first count (first + count) = cards (first + count) :=
      (ih _).trans (cleaned_outside (Or.inr (le_refl _)))
    simp only [cleanRun, top]
    by_cases here : c = first + count
    · subst here
      cases transGC <;> by_cases dirty : cardIsDirtyWrtGenIter (cards (first + count)) = true <;>
        simp [cleaned, dirty, top]
    · have same : cleaned (!transGC) cards first (first + (count + 1)) c =
          cleaned (!transGC) cards first (first + count) c := by
        have bounds : c < first + (count + 1) ↔ c < first + count := by omega
        simp only [cleaned, bounds]
      rw [same, ← ih c]
      split
      · split
        · exact Function.update_of_ne here _ _
        · rfl
      · rfl

/-- Every word of the first region is above every word of the second. -/
def Above (left right : MemRegion) : Prop :=
  ∀ a b, left.Contains a → right.Contains b → b < a

theorem Above.disjoint {left right : MemRegion} (above : Above left right) : left.Disjoint right :=
  fun a inside other => lt_irrefl a (above a a inside other)

/-- What a walk over `n` cards from `limit` on hands to the closure, and the table it leaves. -/
structure Walked (setting : Setting) (clears : Bool) (mri : MemRegion) (limit n : Nat)
    (cards : Cards) (walk : Walk) : Prop where
  covers : ∀ a, (∃ r ∈ walk.handed, r.Contains a) ↔
    mri.Contains a ∧ limit ≤ setting.cardFor a ∧ setting.cardFor a < limit + n ∧
      cards (setting.cardFor a) ≠ cleanCard
  decreasing : walk.handed.Pairwise Above
  table : ∀ c, walk.cards c = cleaned clears cards limit (limit + n) c

theorem walked_zero : Walked setting clears mri limit 0 cards ⟨cards, []⟩ where
  covers a := by
    constructor
    · rintro ⟨r, listed, -⟩
      exact absurd listed not_mem_nil
    · rintro ⟨-, low, high, -⟩
      omega
  decreasing := List.Pairwise.nil
  table c := (cleaned_outside (by omega)).symm

/-- A clean card adds nothing to the walk over the cards below it. -/
theorem Walked.clean (below : Walked setting clears mri limit n cards walk)
    (clean : cards (limit + n) = cleanCard) :
    Walked setting clears mri limit (n + 1) cards walk where
  covers a := by
    rw [below.covers a]
    constructor
    · rintro ⟨inside, low, high, dirty⟩
      exact ⟨inside, low, by omega, dirty⟩
    · rintro ⟨inside, low, high, dirty⟩
      refine ⟨inside, low, ?_, dirty⟩
      -- the card itself is clean, so that no word on it counts
      by_contra top
      exact dirty ((show setting.cardFor a = limit + n by omega) ▸ clean)
  decreasing := below.decreasing
  table c := by
    rw [below.table c]
    refine cleaned_adjacent (Nat.le_add_right limit n) (by omega) (fun c => ?_) c
    by_cases top : c = limit + n
    · have plain : cardIsDirtyWrtGenIter cleanCard = false := by decide
      simp [cleaned, top, clean, plain]
    · exact (cleaned_outside (by omega)).symm

/-- The rest of the walk reads the table in which the run may have been cleaned. -/
theorem Walked.run {cards' : Cards} {rest run : Nat}
    (below : Walked setting clears mri limit rest cards' walk)
    (table : ∀ c, cards' c = cleaned clears cards (limit + rest) (limit + rest + run) c)
    (dirty : ∀ c, limit + rest ≤ c → c < limit + rest + run → cards c ≠ cleanCard) :
    Walked setting clears mri limit (rest + run) cards ⟨walk.cards,
      (⟨setting.addrFor (limit + rest), run * setting.cardSizeInWords⟩ : MemRegion).intersection
        mri :: walk.handed⟩ where
  covers a := by
    have same (lower : setting.cardFor a < limit + rest) :
        cards' (setting.cardFor a) = cards (setting.cardFor a) :=
      (table _).trans (cleaned_outside (Or.inl lower))
    simp only [mem_cons, exists_eq_or_imp, MemRegion.contains_intersection, contains_run,
      below.covers a]
    constructor
    · rintro (⟨⟨low, high⟩, inside⟩ | ⟨inside, low, high, found⟩)
      · exact ⟨inside, by omega, by omega, dirty _ low high⟩
      · exact ⟨inside, low, by omega, same high ▸ found⟩
    · rintro ⟨inside, low, high, found⟩
      by_cases lower : setting.cardFor a < limit + rest
      · exact Or.inr ⟨inside, low, lower, (same lower).symm ▸ found⟩
      · exact Or.inl ⟨⟨le_of_not_gt lower, by omega⟩, inside⟩
  decreasing := by
    refine List.Pairwise.cons ?_ below.decreasing
    intro r listed a b inside other
    rw [MemRegion.contains_intersection, contains_run] at inside
    have under := ((below.covers b).mp ⟨r, listed, other⟩).2.2.1
    by_contra le
    have cardLe : setting.cardFor a ≤ setting.cardFor b :=
      Nat.div_le_div_right (le_of_not_gt le)
    omega
  table c := by
    rw [below.table c]
    exact cleaned_adjacent (by omega) (by omega)
      (fun c => (table c).trans (by rw [add_assoc])) c

theorem walkDown_walked (setting : Setting) (clear : Bool) (mri : MemRegion) (limit : Nat)
    {fuel : Nat} (enough : n ≤ fuel) (cards : Cards) :
    Walked setting (clear && !setting.transGC) mri limit n cards
      (walkDown setting clear mri limit fuel n cards) := by
  induction fuel generalizing n cards with
  | zero =>
    obtain rfl := Nat.le_zero.mp enough
    exact walked_zero
  | succ fuel ih =>
    cases n with
    | zero => exact walked_zero
    | succ n =>
      simp only [walkDown]
      split
      next dirty =>
        have short := dirtyBelow_le cards limit n
        have start : limit + n - dirtyBelow cards limit n =
            limit + (n - dirtyBelow cards limit n) := by omega
        have whole : n + 1 = n - dirtyBelow cards limit n + (dirtyBelow cards limit n + 1) := by
          omega
        rw [start, whole]
        refine Walked.run (ih (by omega) _) ?_ ?_
        · intro c
          cases clear
          · exact (cleaned_false _ _ c).symm
          · exact cleanRun_eq _ _ c
        · intro c low high
          by_cases top : c = limit + n
          · exact top ▸ dirty
          · exact dirtyBelow_ne_clean low (by omega)
      next clean => exact (ih (by omega) cards).clean (not_not.mp clean)

/-- Every region that a walk hands over is a run of its cards, clipped. -/
theorem walkDown_pieces {fuel : Nat} {r : MemRegion}
    (listed : r ∈ (walkDown setting clear mri limit fuel n cards).handed) :
    ∃ first count, 0 < count ∧ limit ≤ first ∧ first + count ≤ limit + n ∧
      r = (⟨setting.addrFor first, count * setting.cardSizeInWords⟩ : MemRegion).intersection
        mri := by
  induction fuel generalizing n cards with
  | zero => exact absurd listed not_mem_nil
  | succ fuel ih =>
    cases n with
    | zero => exact absurd listed not_mem_nil
    | succ n =>
      have short := dirtyBelow_le cards limit n
      simp only [walkDown] at listed
      split at listed
      · rcases mem_cons.mp listed with rfl | later
        · exact ⟨_, _, Nat.succ_pos _, by omega, by omega, rfl⟩
        · obtain ⟨first, count, positive, low, high, same⟩ := ih later
          exact ⟨first, count, positive, low, by omega, same⟩
      · obtain ⟨first, count, positive, low, high, same⟩ := ih listed
        exact ⟨first, count, positive, low, by omega, same⟩

/-- Some word of `mr` in the covered region is on the card. -/
def Touches (setting : Setting) (mr covered : MemRegion) (c : Nat) : Prop :=
  ∃ a, mr.Contains a ∧ covered.Contains a ∧ setting.cardFor a = c

/-- The cards from the first to the last one of a region are those of its words. -/
theorem card_of_word (nonempty : 0 < mri.wordSize) :
    (setting.cardFor mri.start ≤ c ∧ c < setting.cardFor mri.last + 1) ↔
      ∃ a, mri.Contains a ∧ setting.cardFor a = c := by
  have lastEq : mri.last = mri.start + mri.wordSize - 1 := rfl
  constructor
  · rintro ⟨low, high⟩
    by_cases first : setting.cardFor mri.start = c
    · exact ⟨mri.start, ⟨le_refl _, Nat.lt_add_of_pos_right nonempty⟩, first⟩
    · -- a later card: its first word is in the region
      refine ⟨setting.addrFor c, ⟨?_, ?_⟩, Nat.mul_div_cancel c setting.positive⟩
      · have later : mri.start < c * setting.cardSizeInWords :=
          (Nat.div_lt_iff_lt_mul setting.positive).mp (Nat.lt_of_le_of_ne low first)
        exact le_of_lt later
      · have reached : c * setting.cardSizeInWords ≤ mri.last :=
          (Nat.le_div_iff_mul_le setting.positive).mp (Nat.le_of_lt_succ high)
        have stopEq : mri.stop = mri.start + mri.wordSize := rfl
        simp only [Setting.addrFor]
        omega
  · rintro ⟨a, inside, rfl⟩
    have bounds := MemRegion.contains_iff.mp inside
    exact ⟨Nat.div_le_div_right bounds.1, Nat.lt_succ_of_le (Nat.div_le_div_right (by omega))⟩

/-- The walk over one covered region. -/
structure CoveredWalk (setting : Setting) (clears : Bool) (mr covered : MemRegion)
    (cards : Cards) (walk : Walk) : Prop where
  covers : ∀ a, (∃ r ∈ walk.handed, r.Contains a) ↔
    mr.Contains a ∧ covered.Contains a ∧ cards (setting.cardFor a) ≠ cleanCard
  decreasing : walk.handed.Pairwise Above
  cleans : ∀ c, clears = true → Touches setting mr covered c →
    cardIsDirtyWrtGenIter (cards c) = true → walk.cards c = cleanCard
  changes : ∀ c, walk.cards c = cards c ∨ clears = true ∧ Touches setting mr covered c ∧
    cardIsDirtyWrtGenIter (cards c) = true ∧ walk.cards c = cleanCard

theorem walkCovered_walk (setting : Setting) (clear : Bool) (mr covered : MemRegion)
    (cards : Cards) :
    CoveredWalk setting (clear && !setting.transGC) mr covered cards
      (walkCovered setting clear mr covered cards) := by
  simp only [walkCovered]
  split
  next nonempty =>
    have words (a : Nat) : (mr.intersection covered).Contains a ↔ mr.Contains a ∧
        covered.Contains a := MemRegion.contains_intersection
    generalize mr.intersection covered = mri at nonempty words
    have lowHigh : setting.cardFor mri.start ≤ setting.cardFor mri.last := by
      refine Nat.div_le_div_right ?_
      rw [MemRegion.last]
      omega
    have bound : setting.cardFor mri.start +
        (setting.cardFor mri.last + 1 - setting.cardFor mri.start) =
          setting.cardFor mri.last + 1 := by omega
    have walked := walkDown_walked setting clear mri (setting.cardFor mri.start)
      (le_refl (setting.cardFor mri.last + 1 - setting.cardFor mri.start)) cards
    have touches (c : Nat) : (setting.cardFor mri.start ≤ c ∧ c < setting.cardFor mri.last + 1) ↔
        Touches setting mr covered c := by
      rw [card_of_word nonempty]
      simp only [words, and_assoc, Touches]
    constructor
    · intro a
      rw [walked.covers a, bound]
      constructor
      · rintro ⟨inside, -, -, dirty⟩
        have both := (words a).mp inside
        exact ⟨both.1, both.2, dirty⟩
      · rintro ⟨inside, here, dirty⟩
        have between := (touches _).mpr ⟨a, inside, here, rfl⟩
        exact ⟨(words a).mpr ⟨inside, here⟩, between.1, between.2, dirty⟩
    · exact walked.decreasing
    · intro c clears touched dirty
      have between := (touches c).mpr touched
      rw [walked.table c, bound]
      exact if_pos ⟨clears, between.1, between.2, dirty⟩
    · intro c
      rw [walked.table c, bound, cleaned]
      split
      next held => exact Or.inr ⟨held.1, (touches c).mp ⟨held.2.1, held.2.2.1⟩, held.2.2.2, rfl⟩
      next => exact Or.inl rfl
  next isEmpty =>
    have none (a : Nat) : ¬ (mr.Contains a ∧ covered.Contains a) := by
      rw [← MemRegion.contains_intersection]
      exact MemRegion.not_contains_of_isEmpty (Nat.eq_zero_of_not_pos isEmpty)
    constructor
    · intro a
      constructor
      · rintro ⟨r, listed, -⟩
        exact absurd listed not_mem_nil
      · rintro ⟨inside, here, -⟩
        exact absurd ⟨inside, here⟩ (none a)
    · exact List.Pairwise.nil
    · rintro c - ⟨a, inside, here, -⟩ -
      exact absurd ⟨inside, here⟩ (none a)
    · exact fun c => Or.inl rfl

theorem CoveredWalk.ne_clean {covered : MemRegion}
    (walked : CoveredWalk setting clears mr covered cards walk) (dirty : walk.cards c ≠ cleanCard) :
    cards c ≠ cleanCard := by
  rcases walked.changes c with same | ⟨-, -, -, clean⟩
  · exact same ▸ dirty
  · exact absurd clean dirty

/-- A region handed to the closure is part of `mr`, of one covered region and of dirty cards. -/
theorem walkAll_sound {r : MemRegion}
    (listed : r ∈ (walkAll setting clear mr covered cards).handed) :
    ∃ x ∈ covered, ∀ a, r.Contains a →
      mr.Contains a ∧ x.Contains a ∧ cards (setting.cardFor a) ≠ cleanCard := by
  induction covered generalizing cards with
  | nil => exact absurd listed not_mem_nil
  | cons x rest ih =>
    have here := walkCovered_walk setting clear mr x cards
    rcases mem_append.mp listed with now | later
    · refine ⟨x, mem_cons_self, ?_⟩
      intro a inside
      exact (here.covers a).mp ⟨r, now, inside⟩
    · obtain ⟨y, mem, parts⟩ := ih later
      refine ⟨y, mem_cons_of_mem x mem, ?_⟩
      intro a inside
      obtain ⟨given, covers, dirty⟩ := parts a inside
      exact ⟨given, covers, here.ne_clean dirty⟩

/-- The part of one region in another. -/
def Within (r x : MemRegion) : Prop := ∀ a, r.Contains a → x.Contains a

/-- Disjoint, and in order if both are in the same covered region. -/
def Ordered (covered : List MemRegion) (earlier later : MemRegion) : Prop :=
  earlier.Disjoint later ∧
    ∀ x ∈ covered, Within earlier x → Within later x → Above earlier later

theorem eq_of_contains (disjoint : covered.Pairwise MemRegion.Disjoint) {x y : MemRegion}
    (memX : x ∈ covered) (memY : y ∈ covered) {a : Nat} (inX : x.Contains a) (inY : y.Contains a) :
    x = y := by
  by_contra different
  have symmetric : Std.Symm MemRegion.Disjoint := ⟨fun _ _ => MemRegion.Disjoint.symm⟩
  exact disjoint.forall memX memY different a inX inY

theorem walkAll_ordered (all : List MemRegion) (disjoint : covered.Pairwise MemRegion.Disjoint)
    (disjointAll : all.Pairwise MemRegion.Disjoint) (part : covered ⊆ all) (cards : Cards) :
    (walkAll setting clear mr covered cards).handed.Pairwise (Ordered all) := by
  induction covered generalizing cards with
  | nil => exact List.Pairwise.nil
  | cons x rest ih =>
    have here := walkCovered_walk setting clear mr x cards
    have memX : x ∈ all := part mem_cons_self
    refine pairwise_append.mpr ⟨?_, ?_, ?_⟩
    · exact here.decreasing.imp fun above => ⟨above.disjoint, fun _ _ _ _ => above⟩
    · exact ih disjoint.of_cons (fun y mem => part (mem_cons_of_mem x mem)) _
    · intro l now r later
      obtain ⟨y, mem, parts⟩ := walkAll_sound later
      have apart : x.Disjoint y := rel_of_pairwise_cons disjoint mem
      have inX {a : Nat} (inside : l.Contains a) : x.Contains a :=
        ((here.covers a).mp ⟨l, now, inside⟩).2.1
      constructor
      · exact fun a inside other => apart a (inX inside) (parts a other).2.1
      · -- no covered region has words of both
        intro z memZ withinL withinR a b inside other
        have first : x = z := eq_of_contains disjointAll memX memZ (inX inside) (withinL a inside)
        have second : y = z := eq_of_contains disjointAll (part (mem_cons_of_mem x mem)) memZ
          (parts b other).2.1 (withinR b other)
        exact absurd (second ▸ first ▸ inX inside) (apart a (inX inside))

/-- No card that the walk would clean is shared by the words of two covered regions. -/
def Unshared (setting : Setting) (mr : MemRegion) (covered : List MemRegion) (cards : Cards) :
    Prop :=
  covered.Pairwise fun x y => ∀ c, Touches setting mr x c → Touches setting mr y c →
    cardIsDirtyWrtGenIter (cards c) = false

/-- The word is to be handed to the closure. -/
def Wanted (setting : Setting) (mr : MemRegion) (covered : List MemRegion) (cards : Cards)
    (a : Nat) : Prop :=
  mr.Contains a ∧ (∃ x ∈ covered, x.Contains a) ∧ cards (setting.cardFor a) ≠ cleanCard

/-- Every word that is to be handed to the closure is. -/
def Complete (setting : Setting) (clear : Bool) (mr : MemRegion) (covered : List MemRegion)
    (cards : Cards) : Prop :=
  ∀ a, Wanted setting mr covered cards a →
    ∃ r ∈ (walkAll setting clear mr covered cards).handed, r.Contains a

section Cons

variable {x : MemRegion} {rest : List MemRegion}

theorem handed_cons {a : Nat} :
    (∃ r ∈ (walkAll setting clear mr (x :: rest) cards).handed, r.Contains a) ↔
      (∃ r ∈ (walkCovered setting clear mr x cards).handed, r.Contains a) ∨
      ∃ r ∈ (walkAll setting clear mr rest (walkCovered setting clear mr x cards).cards).handed,
        r.Contains a := by
  simp only [walkAll, mem_append, or_and_right, exists_or]

/-- What the walk over the first covered region leaves behind is complete for the others. -/
theorem Complete.later (disjoint : (x :: rest).Pairwise MemRegion.Disjoint)
    (complete : Complete setting clear mr (x :: rest) cards) :
    Complete setting clear mr rest (walkCovered setting clear mr x cards).cards := by
  have here := walkCovered_walk setting clear mr x cards
  rintro a ⟨given, ⟨y, mem, inY⟩, dirty⟩
  have wanted : Wanted setting mr (x :: rest) cards a :=
    ⟨given, ⟨y, mem_cons_of_mem x mem, inY⟩, here.ne_clean dirty⟩
  rcases handed_cons.mp (complete a wanted) with now | later
  · have inX := ((here.covers a).mp now).2.1
    exact absurd inY (rel_of_pairwise_cons disjoint mem a inX)
  · exact later

/-- A card that the first walk cleans is lost for the later regions. -/
theorem Complete.unshared_head (clears : (clear && !setting.transGC) = true)
    (disjoint : (x :: rest).Pairwise MemRegion.Disjoint)
    (complete : Complete setting clear mr (x :: rest) cards) {y : MemRegion} (mem : y ∈ rest)
    (inX : Touches setting mr x c) (inY : Touches setting mr y c) :
    cardIsDirtyWrtGenIter (cards c) = false := by
  have here := walkCovered_walk setting clear mr x cards
  rw [← Bool.not_eq_true]
  intro dirty
  have gone := here.cleans c clears inX dirty
  obtain ⟨b, given, covers, rfl⟩ := inY
  have found : cards (setting.cardFor b) ≠ cleanCard := by
    intro clean
    rw [clean] at dirty
    exact absurd dirty (by decide)
  have wanted : Wanted setting mr (x :: rest) cards b :=
    ⟨given, ⟨y, mem_cons_of_mem x mem, covers⟩, found⟩
  rcases handed_cons.mp (complete b wanted) with now | ⟨r, later, inside⟩
  · exact rel_of_pairwise_cons disjoint mem b ((here.covers b).mp now).2.1 covers
  · obtain ⟨y, -, parts⟩ := walkAll_sound later
    exact (parts b inside).2.2 gone

end Cons

/-- The walk misses nothing exactly if it cleans no card that two covered regions share. -/
theorem complete_iff (disjoint : covered.Pairwise MemRegion.Disjoint) (cards : Cards) :
    Complete setting clear mr covered cards ↔
      ((clear && !setting.transGC) = true → Unshared setting mr covered cards) := by
  induction covered generalizing cards with
  | nil =>
    constructor
    · exact fun _ _ => List.Pairwise.nil
    · rintro - a ⟨-, ⟨y, mem, -⟩, -⟩
      exact absurd mem not_mem_nil
  | cons x rest ih =>
    have here := walkCovered_walk setting clear mr x cards
    constructor
    · intro complete clears
      refine List.Pairwise.cons ?_ ?_
      · intro y mem c inX inY
        exact complete.unshared_head clears disjoint mem inX inY
      · have later := (ih disjoint.of_cons _).mp (complete.later disjoint) clears
        refine (List.Pairwise.and_mem.mp later).imp ?_
        rintro y z ⟨memY, -, spared⟩ c inY inZ
        rcases here.changes c with same | ⟨-, inX, -, -⟩
        · exact same ▸ spared c inY inZ
        · exact complete.unshared_head clears disjoint memY inX inY
    · rintro spared a ⟨given, ⟨y, mem, inY⟩, dirty⟩
      rw [handed_cons]
      rcases mem_cons.mp mem with rfl | mem
      · exact Or.inl ((here.covers a).mpr ⟨given, inY, dirty⟩)
      · right
        have kept : (walkCovered setting clear mr x cards).cards (setting.cardFor a) ≠
            cleanCard := by
          rcases here.changes (setting.cardFor a) with same | ⟨clears, inX, erased, -⟩
          · exact same ▸ dirty
          · have plain := rel_of_pairwise_cons (spared clears) mem _ inX ⟨a, given, inY, rfl⟩
            exact absurd erased (Bool.not_eq_true _ ▸ plain)
        refine (ih disjoint.of_cons _).mpr ?_ a ⟨given, ⟨y, mem, inY⟩, kept⟩
        intro clears
        refine (spared clears).of_cons.imp ?_
        intro y z shared c inY inZ
        rcases here.changes c with same | ⟨-, -, -, clean⟩
        · exact same.symm ▸ shared c inY inZ
        · exact clean ▸ by decide

theorem walkAll_cards (kept : (clear && !setting.transGC) = false) (covered : List MemRegion)
    (cards : Cards) : (walkAll setting clear mr covered cards).cards = cards := by
  induction covered generalizing cards with
  | nil => rfl
  | cons x rest ih =>
    refine (ih _).trans ?_
    funext c
    rcases (walkCovered_walk setting clear mr x cards).changes c with same | ⟨clears, -⟩
    · exact same
    · exact absurd (kept.symm.trans clears) Bool.false_ne_true

/-- The closure is called on disjoint regions, in decreasing order within each covered region. Their
words are exactly those of the region that are covered and whose card is not clean, unless the walk
clears cards and two covered regions share one that it clears. Under TransGC it clears none. -/
theorem nonClean_regions_handed (setting : Setting) (clear : Bool) (mr : MemRegion)
    (covered : List MemRegion) (disjoint : covered.Pairwise MemRegion.Disjoint) (cards : Cards) :
    (nonCleanCardIterateWork setting clear mr covered cards).handed.Pairwise (Ordered covered) ∧
    ((∀ a, (∃ r ∈ (nonCleanCardIterateWork setting clear mr covered cards).handed, r.Contains a) ↔
        Wanted setting mr covered cards a) ↔
      setting.transGC = true ∨ clear = false ∨ Unshared setting mr covered cards) ∧
    (setting.transGC = true →
      (nonCleanCardIterateWork setting clear mr covered cards).cards = cards) := by
  have overruled : (if setting.transGC = true then (if clear = true then false else clear)
      else clear) = (clear && !setting.transGC) := by
    cases clear <;> cases setting.transGC <;> rfl
  have idem : ((clear && !setting.transGC) && !setting.transGC) = (clear && !setting.transGC) := by
    rw [Bool.and_assoc, Bool.and_self]
  simp only [nonCleanCardIterateWork, overruled]
  refine ⟨?_, ?_, ?_⟩
  · exact walkAll_ordered covered disjoint disjoint (List.Subset.refl covered) cards
  · have exact_iff : (∀ a, (∃ r ∈ (walkAll setting (clear && !setting.transGC) mr covered
        cards).handed, r.Contains a) ↔ Wanted setting mr covered cards a) ↔
          Complete setting (clear && !setting.transGC) mr covered cards := by
      constructor
      · exact fun both a => (both a).mpr
      · refine fun complete a => ⟨?_, complete a⟩
        rintro ⟨r, listed, inside⟩
        obtain ⟨x, mem, parts⟩ := walkAll_sound listed
        obtain ⟨given, covers, dirty⟩ := parts a inside
        exact ⟨given, ⟨x, mem, covers⟩, dirty⟩
    rw [exact_iff, complete_iff disjoint, idem]
    cases clear <;> cases setting.transGC <;> simp
  · intro trans
    exact walkAll_cards (by rw [idem, trans, Bool.not_true, Bool.and_false]) covered cards

/-- Cards of 64 words, without TransGC. -/
def plainCards : Setting := ⟨false, 64, Nat.succ_pos _⟩

/-- Two covered regions share the second card, which is dirty as the first one is. -/
def sharedCard : List MemRegion := [⟨0, 96⟩, ⟨96, 96⟩]

def twoDirty : Cards := fun c => if c < 2 then dirtyCard else cleanCard

theorem nonClean_regions_handed_apart :
    [(⟨0, 128⟩ : MemRegion), ⟨128, 64⟩].Pairwise MemRegion.Disjoint ∧
    ∀ a, (∃ r ∈ (nonCleanCardIterateWork plainCards false ⟨0, 192⟩ [⟨0, 128⟩, ⟨128, 64⟩]
      twoDirty).handed, r.Contains a) ↔
        Wanted plainCards ⟨0, 192⟩ [⟨0, 128⟩, ⟨128, 64⟩] twoDirty a := by
  have disjoint : [(⟨0, 128⟩ : MemRegion), ⟨128, 64⟩].Pairwise MemRegion.Disjoint :=
    pairwise_pair.mpr (MemRegion.disjoint_of_stop_le (by decide)).symm
  refine ⟨disjoint, ?_⟩
  exact (nonClean_regions_handed plainCards false ⟨0, 192⟩ _ disjoint twoDirty).2.1.mpr
    (Or.inr (Or.inl rfl))

/-- The walk over the first covered region cleans the shared card, and the words of the second one
on it are lost. -/
theorem shared_card_lost :
    sharedCard.Pairwise MemRegion.Disjoint ∧
    Wanted plainCards ⟨0, 192⟩ sharedCard twoDirty 96 ∧
    ¬ ∃ r ∈ (nonCleanCardIterateWork plainCards true ⟨0, 192⟩ sharedCard twoDirty).handed,
      r.Contains 96 := by
  refine ⟨?_, ?_, ?_⟩
  · exact pairwise_pair.mpr (MemRegion.disjoint_of_stop_le (by decide)).symm
  · exact ⟨by decide, ⟨⟨96, 96⟩, by decide, by decide⟩, by decide⟩
  · have handed : (nonCleanCardIterateWork plainCards true ⟨0, 192⟩ sharedCard twoDirty).handed =
        [⟨0, 96⟩] := by decide
    rw [handed]
    decide

end NonCleanCards
