import Mathlib.Algebra.Order.Ring.Int
import Mathlib.Data.List.Induction
import Mathlib.Logic.Function.Basic
import TransGC.TransitionRuns

/-!
# Concurrent allocation in one transaction eden

The threads of a transaction share an eden and allocate in it without a lock. `allocate` and
`par_allocate` first test the free space, then bump the top by a compare-and-swap below the soft
end; `allocate` has a second loop that asks the old generation for a higher soft end. If the
space does not suffice, the eden is flagged as overflowed. Every read and every compare-and-swap
is one step. A cleared eden has its soft end at its end, so the old generation is never asked.
-/
namespace EdenAllocation
open TransitionRuns Function List Option

variable {Thread : Type}

/-- An eden in the address space of the platform. Addresses count heap words. -/
structure Eden where
  bitsPerWord : Nat
  bytesPerWord : Nat
  bottom : Nat
  hardEnd : Nat
  positive : 0 < bytesPerWord
  ordered : bottom ≤ hardEnd
  addressable : hardEnd * bytesPerWord < 2 ^ bitsPerWord

/-- A call of `allocate`, or of `par_allocate`, for a number of words. -/
structure Request where
  size : Nat
  par : Bool
  deriving DecidableEq, Repr

/-- Where a thread is, with the values that it has read. -/
inductive Pc
  | idle
  | readFree (r : Request)
  | readSoftEnd (r : Request)
  | readTop (r : Request) (endValue : Nat)
  | swapTop (r : Request) (endValue obj : Nat)
  | readLimit (r : Request)
  | askLimit (r : Request) (oldLimit : Nat)
  | swapLimit (r : Request) (oldLimit newLimit : Nat)
  | readFlag (r : Request)
  | writeFlag (r : Request)
  deriving DecidableEq, Repr

def Pc.request : Pc → Option Request
  | .idle => none
  | .readFree r | .readSoftEnd r | .readTop r _ | .swapTop r _ _ | .readLimit r | .askLimit r _
  | .swapLimit r _ _ | .readFlag r | .writeFlag r => some r

structure Range where
  start : Nat
  size : Nat
  deriving DecidableEq, Repr

/-- `returned` lists the ranges in the order of the swaps that allocated them. -/
structure State (Thread : Type) where
  top : Nat
  softEnd : Nat
  overflowed : Bool
  pc : Thread → Pc
  returned : List Range

inductive Event (Thread : Type)
  | call (thread : Thread) (r : Request)
  | act (thread : Thread)
  deriving DecidableEq, Repr

namespace Eden

/-- `free`, in bytes. -/
def free (eden : Eden) (top : Nat) : Nat :=
  (2 ^ eden.bitsPerWord + eden.hardEnd * eden.bytesPerWord - top * eden.bytesPerWord) %
    2 ^ eden.bitsPerWord

/-- `word_size * BytesPerWord`, in the arithmetic of `size_t`. -/
def bytes (eden : Eden) (size : Nat) : Nat := size * eden.bytesPerWord % 2 ^ eden.bitsPerWord

/-- `pointer_delta`, in words. -/
def pointerDelta (eden : Eden) (left right : Nat) : Nat :=
  (2 ^ eden.bitsPerWord + left * eden.bytesPerWord - right * eden.bytesPerWord) %
    2 ^ eden.bitsPerWord / eden.bytesPerWord

/-- The state of an eden that was cleared and reset. -/
def cleared (eden : Eden) : State Thread :=
  ⟨eden.bottom, eden.hardEnd, false, fun _ => .idle, []⟩

end Eden

section Steps

variable [DecidableEq Thread] (eden : Eden) (allocationLimitReached : Nat → Nat → Option Nat)

def State.goto (s : State Thread) (thread : Thread) (pc : Pc) : State Thread :=
  { s with pc := update s.pc thread pc }

/-- The next access of a thread to the shared fields. -/
def act (s : State Thread) (thread : Thread) : Pc → Option (State Thread)
  | .idle => none
  | .readFree r =>
    if eden.free s.top ≥ eden.bytes r.size then some (s.goto thread (.readSoftEnd r))
    else some (s.goto thread (.readFlag r))
  | .readSoftEnd r => some (s.goto thread (.readTop r s.softEnd))
  | .readTop r endValue =>
    if eden.pointerDelta endValue s.top ≥ r.size then
      some (s.goto thread (.swapTop r endValue s.top))
    else if r.par then some (s.goto thread .idle)
    else some (s.goto thread (.readLimit r))
  | .swapTop r endValue obj =>
    if s.top = obj then
      some { s.goto thread .idle with
        top := obj + r.size, returned := s.returned ++ [⟨obj, r.size⟩] }
    else some (s.goto thread (.readTop r endValue))
  | .readLimit r =>
    if s.softEnd < eden.hardEnd then some (s.goto thread (.askLimit r s.softEnd))
    else some (s.goto thread (.readFlag r))
  | .askLimit r oldLimit =>
    match allocationLimitReached s.top r.size with
    | some newLimit => some (s.goto thread (.swapLimit r oldLimit newLimit))
    | none => some (s.goto thread (.readSoftEnd r))
  | .swapLimit r oldLimit newLimit =>
    some { s.goto thread (.readSoftEnd r) with
      softEnd := if s.softEnd = oldLimit then newLimit else s.softEnd }
  | .readFlag r =>
    if s.overflowed then some (s.goto thread .idle) else some (s.goto thread (.writeFlag r))
  | .writeFlag _ => some { s.goto thread .idle with overflowed := true }

def step (s : State Thread) : Event Thread → Option (State Thread)
  | .call thread r =>
    match s.pc thread with
    | .idle => some (s.goto thread (.readFree r))
    | _ => none
  | .act thread => act eden allocationLimitReached s thread (s.pc thread)

end Steps

/-! ### Ranges one behind the other -/

/-- The ranges fill `[low, high)`, each one beginning where the one before it ends. -/
def Tiles : Nat → List Range → Nat → Prop
  | low, [], high => low = high
  | low, range :: ranges, high => range.start = low ∧ Tiles (low + range.size) ranges high

theorem Tiles.snoc {low high : Nat} {ranges : List Range} (tiles : Tiles low ranges high)
    (size : Nat) : Tiles low (ranges ++ [⟨high, size⟩]) (high + size) := by
  induction ranges generalizing low with
  | nil =>
    cases tiles
    exact ⟨rfl, rfl⟩
  | cons range ranges ih => exact ⟨tiles.1, ih tiles.2⟩

theorem Tiles.le {low high : Nat} {ranges : List Range} (tiles : Tiles low ranges high) :
    low ≤ high := by
  induction ranges generalizing low with
  | nil => exact le_of_eq tiles
  | cons range ranges ih => exact le_trans (Nat.le_add_right _ _) (ih tiles.2)

theorem Tiles.inside {low high : Nat} {ranges : List Range} (tiles : Tiles low ranges high) :
    ∀ range ∈ ranges, low ≤ range.start ∧ range.start + range.size ≤ high := by
  induction ranges generalizing low with
  | nil => simp
  | cons range ranges ih =>
    intro other among
    have rest := tiles.2.le
    have first := tiles.1
    rcases mem_cons.mp among with rfl | later
    · omega
    · have := ih tiles.2 other later
      omega

theorem Tiles.disjoint {low high : Nat} {ranges : List Range} (tiles : Tiles low ranges high) :
    ranges.Pairwise fun left right => left.start + left.size ≤ right.start := by
  induction ranges generalizing low with
  | nil => exact List.Pairwise.nil
  | cons range ranges ih =>
    refine List.Pairwise.cons (fun other among => ?_) (ih tiles.2)
    have := (tiles.2.inside other among).1
    have := tiles.1
    omega

theorem Tiles.covers {low high a : Nat} {ranges : List Range} (tiles : Tiles low ranges high) :
    low ≤ a ∧ a < high ↔ ∃ range ∈ ranges, range.start ≤ a ∧ a < range.start + range.size := by
  induction ranges generalizing low with
  | nil =>
    cases tiles
    simp
  | cons range ranges ih =>
    have rest := tiles.2.le
    have first := tiles.1
    simp only [mem_cons, exists_eq_or_imp, ← ih tiles.2]
    omega

/-! ### Every step -/

namespace Eden

variable {eden : Eden} {top : Nat}

theorem delta_bytes (below : top ≤ eden.hardEnd) :
    (2 ^ eden.bitsPerWord + eden.hardEnd * eden.bytesPerWord - top * eden.bytesPerWord) %
      2 ^ eden.bitsPerWord = (eden.hardEnd - top) * eden.bytesPerWord := by
  have addressable := eden.addressable
  have le := Nat.mul_le_mul_right eden.bytesPerWord below
  rw [Nat.add_sub_assoc le, Nat.add_mod_left, ← Nat.sub_mul]
  apply Nat.mod_eq_of_lt
  exact lt_of_le_of_lt (Nat.mul_le_mul_right _ (Nat.sub_le _ _)) addressable

theorem pointerDelta_eq (below : top ≤ eden.hardEnd) :
    eden.pointerDelta eden.hardEnd top = eden.hardEnd - top := by
  rw [pointerDelta, delta_bytes below, Nat.mul_div_cancel _ eden.positive]

/-- Too few free bytes for a request, even if their number was reduced to a word. -/
theorem lt_of_free_lt {size : Nat} (below : top ≤ eden.hardEnd)
    (short : ¬eden.free top ≥ eden.bytes size) : eden.hardEnd - top < size := by
  rw [free, delta_bytes below, bytes] at short
  have := Nat.mod_le (size * eden.bytesPerWord) (2 ^ eden.bitsPerWord)
  exact Nat.lt_of_mul_lt_mul_right (a := eden.bytesPerWord) (by omega)

end Eden

/-- The end has not moved, and the top that a swap compares with left room for the request. -/
def Holds (eden : Eden) : Pc → Prop
  | .readTop _ endValue => endValue = eden.hardEnd
  | .swapTop r endValue obj => endValue = eden.hardEnd ∧ obj + r.size ≤ eden.hardEnd
  | .askLimit _ _ | .swapLimit _ _ _ => False
  | _ => True

structure Inv (eden : Eden) (s : State Thread) : Prop where
  soft : s.softEnd = eden.hardEnd
  inside : s.top ≤ eden.hardEnd
  tiles : Tiles eden.bottom s.returned s.top
  holds : ∀ thread, Holds eden (s.pc thread)

theorem cleared_inv (eden : Eden) : Inv eden (eden.cleared : State Thread) :=
  ⟨rfl, eden.ordered, rfl, fun _ => trivial⟩

/-- A thread asks for more than the room that is left. -/
def Short (eden : Eden) (s : State Thread) : Prop :=
  ∃ thread r, (s.pc thread).request = some r ∧ eden.hardEnd - s.top < r.size

/-- The thread has found that the space does not suffice. -/
def Pc.Refused : Pc → Prop
  | .readLimit _ | .readFlag _ | .writeFlag _ => True
  | _ => False

/-- The eden is flagged, or about to be. -/
def Refusing (s : State Thread) : Prop :=
  s.overflowed = true ∨ ∃ thread, (s.pc thread).Refused

section Steps

variable [DecidableEq Thread] {eden : Eden} {allocationLimitReached : Nat → Nat → Option Nat}
  {s t : State Thread} {e : Event Thread} {thread : Thread}

theorem Inv.goto (inv : Inv eden s) {pc : Pc} (holds : Holds eden pc) :
    Inv eden (s.goto thread pc) := by
  refine ⟨inv.soft, inv.inside, inv.tiles, fun other => ?_⟩
  by_cases same : other = thread
  · subst same
    simpa [State.goto] using holds
  · simpa [State.goto, update_of_ne same] using inv.holds other

theorem refusing_goto {pc : Pc} (refusing : Refusing (s.goto thread pc)) :
    Refusing s ∨ pc.Refused := by
  rcases refusing with flagged | ⟨other, refused⟩
  · exact .inl (.inl flagged)
  · by_cases same : other = thread
    · subst same
      exact .inr (by simpa [State.goto] using refused)
    · exact .inl (.inr ⟨other, by simpa [State.goto, update_of_ne same] using refused⟩)

/-- A step keeps the invariant, and brings the eden to be flagged only if a request exceeds the room
that is left. -/
theorem step_spec (inv : Inv eden s) (stepped : step eden allocationLimitReached s e = some t) :
    Inv eden t ∧ (Refusing t → Refusing s ∨ Short eden s) := by
  have inside := inv.inside
  cases e with
  | call thread r =>
    simp only [step] at stepped
    split at stepped
    · cases stepped
      refine ⟨inv.goto trivial, fun refusing => .inl ((refusing_goto refusing).resolve_right nofun)⟩
    · cases stepped
  | act thread =>
    have holds := inv.holds thread
    simp only [step] at stepped
    -- the steps after which the thread is not about to flag the eden
    have quiet : ∀ {pc : Pc}, Holds eden pc → ¬pc.Refused → Inv eden (s.goto thread pc) ∧
        (Refusing (s.goto thread pc) → Refusing s ∨ Short eden s) :=
      fun holds calm => ⟨inv.goto holds,
        fun refusing => .inl ((refusing_goto refusing).resolve_right calm)⟩
    cases pc : s.pc thread with
    | idle =>
      rw [pc] at stepped
      cases stepped
    | readFree r =>
      rw [pc, act] at stepped
      split at stepped
      · cases stepped
        exact quiet trivial id
      · rename_i short
        cases stepped
        refine ⟨inv.goto trivial, fun _ => .inr ⟨thread, r, ?_, Eden.lt_of_free_lt inside short⟩⟩
        rw [pc]
        rfl
    | readSoftEnd r =>
      rw [pc, act] at stepped
      cases stepped
      exact quiet inv.soft id
    | readTop r endValue =>
      rw [pc] at holds
      have whole : endValue = eden.hardEnd := holds
      rw [pc, act, whole, Eden.pointerDelta_eq inside] at stepped
      split at stepped
      · rename_i fits
        cases stepped
        exact quiet ⟨rfl, by omega⟩ id
      · rename_i short
        have tooLarge : Short eden s := ⟨thread, r, by rw [pc]; rfl, by omega⟩
        split at stepped
        · cases stepped
          exact quiet trivial id
        · cases stepped
          exact ⟨inv.goto trivial, fun _ => .inr tooLarge⟩
    | swapTop r endValue obj =>
      rw [pc] at holds
      obtain ⟨whole, room⟩ := holds
      rw [pc, act] at stepped
      split at stepped
      · rename_i same
        cases stepped
        subst same
        have kept := (show Inv eden (s.goto thread .idle) from inv.goto trivial).holds
        refine ⟨⟨inv.soft, room, inv.tiles.snoc r.size, kept⟩, fun refusing => .inl ?_⟩
        have back : Refusing (s.goto thread .idle) := refusing
        exact (refusing_goto back).resolve_right id
      · cases stepped
        exact quiet whole id
    | readLimit r =>
      have refusing : Refusing s := .inr ⟨thread, by rw [pc]; trivial⟩
      rw [pc, act, if_neg (by rw [inv.soft]; exact lt_irrefl _)] at stepped
      cases stepped
      exact ⟨inv.goto trivial, fun _ => .inl refusing⟩
    | askLimit | swapLimit =>
      rw [pc] at holds
      exact holds.elim
    | readFlag r =>
      have refusing : Refusing s := .inr ⟨thread, by rw [pc]; trivial⟩
      rw [pc, act] at stepped
      split at stepped <;> cases stepped <;> exact ⟨inv.goto trivial, fun _ => .inl refusing⟩
    | writeFlag r =>
      have refusing : Refusing s := .inr ⟨thread, by rw [pc]; trivial⟩
      rw [pc, act] at stepped
      cases stepped
      have kept := (show Inv eden (s.goto thread .idle) from inv.goto trivial).holds
      exact ⟨⟨inv.soft, inv.inside, inv.tiles, kept⟩, fun _ => .inl refusing⟩

/-! ### Runs -/

theorem run_inv {events : List (Event Thread)}
    (reached : run (step eden allocationLimitReached) eden.cleared events = some t) :
    Inv eden t :=
  run_invariant (fun _ _ _ inv stepped => (step_spec inv stepped).1) (cleared_inv eden) reached

theorem run_refusing {events : List (Event Thread)}
    (reached : run (step eden allocationLimitReached) eden.cleared events = some t)
    (refusing : Refusing t) :
    Visits (step eden allocationLimitReached) (Short eden) eden.cleared events := by
  induction events using reverseRecOn generalizing t with
  | nil =>
    cases some.inj reached
    rcases refusing with flagged | ⟨thread, refused⟩
    · cases flagged
    · exact refused.elim
  | append_singleton events e ih =>
    obtain ⟨m, front, last⟩ := run_append_eq_some.mp reached
    obtain ⟨n, stepped, same⟩ := run_cons_eq_some.mp last
    cases some.inj same
    rcases (step_spec (run_inv front) stepped).2 refusing with before | short
    · exact (ih front before).append [e]
    · exact (visits_last front short).append [e]

/-- From a cleared eden, under every interleaving: the ranges returned are disjoint, lie in the eden
and make up what is below the top; and the eden is flagged only if some request was larger than the
room left at that moment. -/
theorem allocations_tile_eden {events : List (Event Thread)}
    (reached : run (step eden allocationLimitReached) eden.cleared events = some t) :
    (t.returned.Pairwise fun left right => left.start + left.size ≤ right.start) ∧
      (∀ range ∈ t.returned, eden.bottom ≤ range.start ∧ range.start + range.size ≤ eden.hardEnd) ∧
      (∀ a, eden.bottom ≤ a ∧ a < t.top ↔
        ∃ range ∈ t.returned, range.start ≤ a ∧ a < range.start + range.size) ∧
      (t.overflowed = true →
        Visits (step eden allocationLimitReached) (Short eden) eden.cleared events) := by
  have inv := run_inv reached
  refine ⟨inv.tiles.disjoint, fun range among => ?_, fun a => inv.tiles.covers,
    fun flagged => run_refusing reached (.inl flagged)⟩
  have := inv.tiles.inside range among
  have := inv.inside
  omega

end Steps

/-- Eight words. -/
private def smallEden : Eden := ⟨64, 8, 100, 108, by decide, by decide, by decide⟩

/-- Of eight words two threads ask for four and five; the later one finds too little room. -/
theorem racing_allocations_tile :
    ∃ t, run (step smallEden fun _ _ => none) smallEden.cleared
        [.call 0 ⟨4, false⟩, .call 1 ⟨5, false⟩, .act 0, .act 1, .act 0, .act 1, .act 0, .act 1,
          .act 0, .act 1, .act 1, .act 1, .act 1, .act (1 : Nat)] = some t ∧
      t.returned = [⟨100, 4⟩] ∧ t.top = 104 ∧ t.overflowed = true ∧
      (∀ a, 100 ≤ a ∧ a < t.top ↔ ∃ range ∈ t.returned, range.start ≤ a ∧
        a < range.start + range.size) := by
  have ends : (run (step smallEden fun _ _ => none) smallEden.cleared
      [.call 0 ⟨4, false⟩, .call 1 ⟨5, false⟩, .act 0, .act 1, .act 0, .act 1, .act 0, .act 1,
        .act 0, .act 1, .act 1, .act 1, .act 1, .act (1 : Nat)]).map
        (fun t => (t.returned, t.top, t.overflowed)) = some ([⟨100, 4⟩], 104, true) := by
    decide +kernel
  obtain ⟨t, reached, fields⟩ := map_eq_some_iff.mp ends
  obtain ⟨returned, top, flagged⟩ : t.returned = [⟨100, 4⟩] ∧ t.top = 104 ∧ t.overflowed = true :=
    by simpa using fields
  exact ⟨t, reached, returned, top, flagged, (allocations_tile_eden reached).2.2.1⟩

end EdenAllocation
