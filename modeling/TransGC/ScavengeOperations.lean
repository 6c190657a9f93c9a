import Mathlib.Logic.Relation
import TransGC.YoungScavenge

/-!
# The operations of a scavenge

Everything a scavenge does is made of a few operations on its state. None of them takes back a
failed promotion: if none has failed at the end, none had failed on the way.
-/
namespace ScavengeOperations
open EdenTable MarkWord ObjectHeap YoungScavenge

variable {c : Scavenger} {σ τ : Scan}

/-- An operation of a scavenge, whatever it is applied to. -/
inductive Operation (c : Scavenger) : Scan → Scan → Prop
  | store {σ : Scan} (s : Slot) (value : Nat) : Operation c σ (σ.store s value)
  | copy {σ : Scan} (d : Destination) (a : Nat) : Operation c σ (evacuate σ d a)
  | fail {σ : Scan} (a : Nat) : Operation c σ (handlePromotionFailure c σ a)
  | card {σ : Scan} {cards : Region → Nat → Card} (marks : Marks σ.cards cards) :
      Operation c σ { σ with cards := cards }
  | discover {σ : Scan} (kind : ReferenceType) (r : Nat) : Operation c σ (σ.addDiscovered kind r)
  | remove {σ : Scan} (kind : ReferenceType) (r : Nat) : Operation c σ (σ.removeDiscovered kind r)
  | pop {σ : Scan} (rest : List Nat) : Operation c σ { σ with failureStack := rest }
  | advance {σ : Scan} (d : Destination) : Operation c σ (σ.advance d)
  | stopDiscovery {σ : Scan} : Operation c σ { σ with discovering := false }
  | abort {σ : Scan} : Operation c σ { σ with aborted := true }

def Operations (c : Scavenger) : Scan → Scan → Prop := Relation.ReflTransGen (Operation c)

theorem failed_of_operations (operations : Operations c σ τ) (failed : σ.promotionFailed = true) :
    τ.promotionFailed = true := by
  induction operations with
  | refl => exact failed
  | tail _ operation ih =>
    cases operation with
    | copy d a => cases d <;> exact ih
    | fail a => rfl
    | _ => exact ih

theorem succeeded_before (operations : Operations c σ τ) (success : τ.promotionFailed = false) :
    σ.promotionFailed = false := by
  cases before : σ.promotionFailed with
  | false => rfl
  | true =>
    rw [failed_of_operations operations before] at success
    cases success

theorem marks_of_operations (operations : Operations c σ τ) : Marks σ.cards τ.cards := by
  induction operations with
  | refl => exact .refl _
  | tail _ operation ih =>
    cases operation with
    | copy d a => cases d <;> exact ih
    | card marks => exact fun region card marked => marks region card (ih region card marked)
    | _ => exact ih

theorem foldl_operations {α : Type*} {f : Scan → α → Scan}
    (each : ∀ σ x, Operations c σ (f σ x)) (l : List α) (σ : Scan) :
    Operations c σ (l.foldl f σ) := by
  induction l generalizing σ with
  | nil => exact .refl
  | cons x l ih => exact .trans (each σ x) (ih _)

theorem redirect_operations {drain : Scan → Scan} (drains : ∀ σ, Operations c σ (drain σ))
    (σ : Scan) (s : Slot) : Operations c σ (redirect c drain σ s) := by
  unfold redirect
  dsimp only
  split
  · exact .single (.store s _)
  · unfold copyToSurvivorSpace
    split
    · exact .head (.copy _ _) (.single (.store s _))
    · exact .head (.fail _)
        (.trans (drains _) (.single (.store s _)))

theorem fastScan_operations {drain : Scan → Scan} (drains : ∀ σ, Operations c σ (drain σ))
    (barrier : Option Region) (σ : Scan) (s : Slot) :
    Operations c σ (fastScan c drain barrier σ s) := by
  have marks : ∀ υ : Scan,
      Operations c υ (barrier.elim υ fun region => doBarrier c region υ s) := by
    intro υ
    cases barrier with
    | none => exact .refl
    | some region => exact .single (.card (c.doBarrier_marks υ.heap region s))
  unfold fastScan
  split
  · exact .refl
  · dsimp only
    refine .trans ?_ (marks _)
    split
    · exact .trans (redirect_operations drains σ s) (marks _)
    · exact .refl

theorem discoverReference_cases {kind : ReferenceType} {r : Nat}
    (found : discoverReference c σ r kind = some τ) :
    σ.discovering = true ∧ σ.words (.field r nextOffset) = 0 ∧ c.inGen0 r = true ∧
      (kind = .soft → c.shouldClear r = true) ∧
      (r ∈ σ.discovered kind ∧ τ = σ ∨
        r ∉ σ.discovered kind ∧ kind ≠ .other ∧ τ = σ.addDiscovered kind r) := by
  simp only [discoverReference, Option.ite_none_left_eq_some] at found
  obtain ⟨discovering, active, region, policy, found⟩ := found
  refine ⟨by simpa using discovering, not_not.mp active, by simpa using region, ?_, ?_⟩
  · intro soft
    by_contra keep
    exact policy ⟨soft, by simpa using keep⟩
  · split at found
    · rename_i among
      cases found
      exact .inl ⟨among, rfl⟩
    · rename_i new
      obtain ⟨typed, ⟨⟩⟩ := Option.ite_none_left_eq_some.mp found
      exact .inr ⟨new, typed, rfl⟩

theorem iterateReference_operations {doOop : Scan → Slot → Scan}
    (each : ∀ σ s, Operations c σ (doOop σ s)) (σ : Scan) (obj : Nat) (kind : ReferenceType) :
    Operations c σ (iterateReference c doOop σ obj kind) := by
  unfold iterateReference
  dsimp only
  split
  · exact each _ _
  · split
    · rename_i υ found
      split at found
      · cases found
      · rcases (discoverReference_cases found).2.2.2.2 with ⟨-, rfl⟩ | ⟨-, -, rfl⟩
        · exact .refl
        · exact .single (.discover _ _)
    · exact .trans (each _ _) (each _ _)

theorem oopIterate_operations {doOop : Scan → Slot → Scan}
    (each : ∀ σ s, Operations c σ (doOop σ s)) (σ : Scan) (obj : Nat) :
    Operations c σ (oopIterate c doOop σ obj) := by
  unfold oopIterate
  dsimp only
  refine .trans (foldl_operations
    (fun σ offset => each σ (.field obj offset)) (σ.klass obj).oops σ) ?_
  split
  · exact .refl
  · exact iterateReference_operations each _ _ _

theorem drain_operations (σ : Scan) : Operations c σ (drain c σ) := by
  have loop : ∀ (fuel : Nat) (σ : Scan), Operations c σ (drainPromoFailureScanStack c fuel σ) := by
    intro fuel
    induction fuel with
    | zero => exact fun _ => .single .abort
    | succ fuel ih =>
      intro σ
      rw [drainPromoFailureScanStack]
      split
      · exact .refl
      · rename_i rest stack
        refine .head (.pop rest) (.trans ?_ (ih _))
        exact oopIterate_operations
          (fun υ s => fastScan_operations (fun _ => .refl) none υ s) _ _
  exact loop _ σ

theorem scanSlot_operations (barrier : Option Region) (σ : Scan) (s : Slot) :
    Operations c σ (scanSlot c barrier σ s) := fastScan_operations drain_operations barrier σ s

theorem filtered_operations (region : Region) (cards : Nat → Card) (isArray : Bool) (σ : Scan)
    (s : Slot) : Operations c σ (filtered c region cards isArray σ s) := by
  unfold filtered
  split
  · split
    · exact scanSlot_operations _ _ _
    · exact .refl
  · exact .refl

theorem youngerRefsIterate_operations (region : Region) (objects : List Nat) (σ : Scan) :
    Operations c σ (youngerRefsIterate c region objects σ) :=
  foldl_operations (fun υ obj => oopIterate_operations
    (fun ω s => filtered_operations region _ _ ω s) υ obj) objects σ

theorem oopIterateSpace_operations (region : Region) (objects : List Nat) (σ : Scan) :
    Operations c σ (oopIterateSpace c region objects σ) :=
  foldl_operations (fun υ obj => oopIterate_operations
    (fun ω s => scanSlot_operations (some region) ω s) υ obj) objects σ

theorem processStrongRoots_operations (σ : Scan) : Operations c σ (processStrongRoots c σ) :=
  foldl_operations (fun υ s => scanSlot_operations none υ s) _ σ

theorem sinceSaveMarks_operations (d : Destination) (fuel : Nat) (σ : Scan) :
    Operations c σ (sinceSaveMarks c d fuel σ) := by
  induction fuel generalizing σ with
  | zero => exact .single .abort
  | succ fuel ih =>
    rw [sinceSaveMarks]
    split
    · exact .refl
    · refine .head (.advance d) (.trans ?_ (ih _))
      exact oopIterate_operations (fun υ s => scanSlot_operations _ υ s) _ _

theorem oopSinceSaveMarksIterate_operations (σ : Scan) :
    Operations c σ (oopSinceSaveMarksIterate c σ) :=
  .trans (sinceSaveMarks_operations _ _ _) (sinceSaveMarks_operations _ _ _)

theorem evacuateFollowersLoop_operations (fuel : Nat) (σ : Scan) :
    Operations c σ (evacuateFollowersLoop c fuel σ) := by
  induction fuel generalizing σ with
  | zero => exact .single .abort
  | succ fuel ih =>
    rw [evacuateFollowersLoop]
    refine .trans (oopSinceSaveMarksIterate_operations σ) ?_
    split
    · exact .refl
    · exact ih _

theorem evacuateFollowers_operations (σ : Scan) : Operations c σ (evacuateFollowers c σ) := by
  unfold evacuateFollowers
  dsimp only
  refine .trans (evacuateFollowersLoop_operations (rounds σ) σ) ?_
  split
  · exact .refl
  · exact .single .abort

theorem keepAliveCard_marks (young : YoungHeap) (s : Slot) :
    Marks young.cards (keepAliveCard c young s) := by
  cases s with
  | field obj offset =>
    unfold keepAliveCard
    dsimp only
    split_ifs <;> simp
  | _ => exact .refl _

theorem keepAlive_operations (σ : Scan) (s : Slot) : Operations c σ (keepAlive c σ s) := by
  refine .trans ?_ (.single (.card (keepAliveCard_marks _ s)))
  split
  · exact redirect_operations drain_operations σ s
  · exact .refl

theorem processPhase1_operations (shouldClear : Nat → Bool) (kind : ReferenceType) (σ : Scan) :
    Operations c σ (processPhase1 c shouldClear kind σ) := by
  refine foldl_operations (fun υ r => ?_) _ σ
  dsimp only
  split
  · refine .head (.remove kind r) ?_
    exact .head (.store _ _) (keepAlive_operations _ _)
  · exact .refl

theorem processPhase2_operations (kind : ReferenceType) (σ : Scan) :
    Operations c σ (processPhase2 c kind σ) := by
  refine foldl_operations (fun υ r => ?_) _ σ
  split
  · exact .head (.remove kind r) (keepAlive_operations _ _)
  · exact .refl

theorem processPhase3_operations (clearReferent : Bool) (kind : ReferenceType) (σ : Scan) :
    Operations c σ (processPhase3 c clearReferent kind σ) := by
  refine foldl_operations (fun υ r => ?_) _ σ
  split
  · exact .single (.store _ _)
  · exact keepAlive_operations _ _

theorem processDiscoveredReflist_operations (policy : Option (Nat → Bool)) (clearReferent : Bool)
    (kind : ReferenceType) (σ : Scan) :
    Operations c σ (processDiscoveredReflist c policy clearReferent kind σ) := by
  have last : ∀ υ : Scan, Operations c υ
      (evacuateFollowers c (processPhase3 c clearReferent kind (processPhase2 c kind υ))) :=
    fun υ => .trans (processPhase2_operations kind υ)
      (.trans (processPhase3_operations _ _ _) (evacuateFollowers_operations _))
  cases policy with
  | none => exact last σ
  | some shouldClear =>
    refine .trans (processPhase1_operations shouldClear kind σ) ?_
    exact .trans (evacuateFollowers_operations _) (last _)

theorem weakOopsDo_operations (σ : Scan) : Operations c σ (weakOopsDo c σ) := by
  refine foldl_operations (fun υ s => ?_) _ σ
  split
  · exact .refl
  · split
    · exact keepAlive_operations υ s
    · exact .single (.store _ _)

theorem processDiscoveredReferences_operations (σ : Scan) :
    Operations c σ (processDiscoveredReferences c σ) := by
  refine .head .stopDiscovery ?_
  refine .trans (processDiscoveredReflist_operations (some c.clears) true .soft _) ?_
  refine .trans (processDiscoveredReflist_operations none true .weak _) ?_
  refine .trans (processDiscoveredReflist_operations none false .final _) ?_
  refine .trans (processDiscoveredReflist_operations none false .phantom _) ?_
  exact .trans (weakOopsDo_operations _) (evacuateFollowers_operations _)

end ScavengeOperations
