import Mathlib.Logic.Function.Basic
import TransGC.LinkedChains
import TransGC.TransitionRuns

/-!
# Watchers of marker descriptors

`predicateManager` keeps the subscribed watchers in a pool, and each marker descriptor has a list of
the watchers that attached to it. All of these, and the list of the watchers that want to see loaded
methods, are doubly linked through the same two fields of a watcher. `DL_APPEND` finds the end of a
list through the `prev` field of its first node. Next to the links the model records which watchers
have subscribed and which have attached to which descriptor.
-/

namespace WatcherLists

open LinkedChains TransitionRuns Function List

variable {W D : Type} [DecidableEq W]

structure Links (W : Type) where
  prev : W → Option W
  next : W → Option W

namespace Links

variable (links : Links W)

def setPrev (w : W) (p : Option W) : Links W := { links with prev := update links.prev w p }

def setNext (w : W) (p : Option W) : Links W := { links with next := update links.next w p }

end Links

/-- The links and the first node afterwards; no result if the first node has no `prev`. -/
def dlAppend (links : Links W) (head : Option W) (add : W) : Option (Links W × Option W) :=
  match head with
  | some h => do
    let links := links.setPrev add (links.prev h)
    let tail ← links.prev h
    let links := links.setNext tail (some add)
    let links := links.setPrev h (some add)
    some (links.setNext add none, some h)
  | none => some ((links.setPrev add (some add)).setNext add none, some add)

structure Manager (W D : Type) where
  links : Links W
  wpool : Option W
  klassLoadWatchers : Option W
  watchers : D → Option W

namespace Manager

/-- `methodLoaded` tells which watchers have that callback. -/
def subscribe (methodLoaded : W → Bool) (m : Manager W D) (w : W) : Option (Manager W D) := do
  let (links, wpool) ← dlAppend m.links m.wpool w
  let m := { m with links, wpool }
  if methodLoaded w then
    let (links, klassLoadWatchers) ← dlAppend m.links m.klassLoadWatchers w
    some { m with links, klassLoadWatchers }
  else some m

variable [DecidableEq D]

/-- The body of the loop in `broadcast` for a watcher whose callback agrees. -/
def attachTo (m : Manager W D) (md : D) (w : W) : Option (Manager W D) := do
  let (links, head) ← dlAppend m.links (m.watchers md) w
  some { m with links, watchers := update m.watchers md head }

/-- `attach` gives the answers of the callbacks; the second result are the watchers that attached. A
loop that passes more watchers than there are does not end. -/
def broadcastLoop (attach : W → Bool) (md : D) :
    Nat → Option W → Manager W D → List W → Option (Manager W D × List W)
  | _, none, m, done => some (m, done)
  | 0, some _, _, _ => none
  | fuel + 1, some w, m, done =>
    if attach w then do
      let m ← m.attachTo md w
      broadcastLoop attach md fuel (m.links.next w) m (done ++ [w])
    else broadcastLoop attach md fuel (m.links.next w) m done

def broadcast (m : Manager W D) (count : Nat) (md : D) (attach : W → Bool) :
    Option (Manager W D × List W) := broadcastLoop attach md count m.wpool m []

end Manager

/-- The manager and what happened so far. -/
structure State (W D : Type) where
  manager : Manager W D
  subscribed : List W
  attached : D → List W

inductive Event (W D : Type)
  | subscribe (w : W)
  | broadcast (md : D) (attach : W → Bool)

def step [DecidableEq D] (methodLoaded : W → Bool) (st : State W D) : Event W D → Option (State W D)
  | .subscribe w => do
    let manager ← st.manager.subscribe methodLoaded w
    some { st with manager, subscribed := st.subscribed ++ [w] }
  | .broadcast md attach => do
    let (manager, done) ← st.manager.broadcast st.subscribed.length md attach
    some { st with
      manager
      attached := update st.attached md (st.attached md ++ done) }

/-- Before the first event, with the links as they happen to be. -/
def initial (links : Links W) : State W D := ⟨⟨links, none, none, fun _ => none⟩, [], fun _ => []⟩

/-- The pool has the subscribed watchers, and each descriptor's list those attached to it. -/
structure Intact (st : State W D) : Prop where
  pool : Chain st.manager.links.next st.manager.wpool st.subscribed
  lists : ∀ md, Chain st.manager.links.next (st.manager.watchers md) (st.attached md)

/-- A watcher subscribes once, and before any has attached. If it has a callback for loaded methods,
it is the first such watcher, or the first or the last watcher in the pool has one. Only the last
watcher in the pool attaches to a descriptor, and once. -/
def Allowed (methodLoaded : W → Bool) (st : State W D) : Event W D → Prop
  | .subscribe w =>
    w ∉ st.subscribed ∧ (∀ md, st.attached md = []) ∧
      (methodLoaded w = true → (∀ v ∈ st.subscribed, methodLoaded v = false) ∨
        (∃ v ∈ st.subscribed.head?, methodLoaded v = true) ∨
        ∃ v ∈ st.subscribed.getLast?, methodLoaded v = true)
  | .broadcast md attach =>
    ∀ w ∈ st.subscribed, attach w = true → st.subscribed.getLast? = some w ∧ st.attached md = []

/-! ### Appending -/

section Append

variable {links : Links W} {h tail add : W}

theorem dlAppend_some (last : links.prev h = some tail) :
    dlAppend links (some h) add =
      some (⟨update (update links.prev add (some tail)) h (some add),
        update (update links.next tail (some add)) add none⟩, some h) := by
  have still : (links.setPrev add (some tail)).prev h = some tail := by
    by_cases same : h = add
    · rw [same]
      exact update_self ..
    · exact (update_of_ne same ..).trans last
  simp only [dlAppend, last, still, Option.bind_eq_bind, Option.bind_some]
  rfl

theorem dlAppend_none :
    dlAppend links none add = some (⟨update links.prev add (some add),
      update links.next add none⟩, some add) := rfl

end Append

/-! ### The invariant -/

/-- `loaded` are the subscribed watchers with a callback for loaded methods. The first watcher of
the pool leads to the last one, and the first of the list `loaded` to the last one there, unless the
same watcher is first in both. -/
structure Inv (loaded : List W) (st : State W D) : Prop where
  pool : Chain st.manager.links.next st.manager.wpool st.subscribed
  tail : ∀ h, st.manager.wpool = some h → st.manager.links.prev h = st.subscribed.getLast?
  among : loaded.Sublist st.subscribed
  klass : st.manager.klassLoadWatchers = loaded.head?
  klassTail : ∀ k, st.manager.klassLoadWatchers = some k → st.manager.wpool ≠ some k →
    st.manager.links.prev k = loaded.getLast?
  lists : ∀ md, (st.manager.watchers md = none ∧ st.attached md = []) ∨
    ∃ l, st.subscribed.getLast? = some l ∧ st.manager.watchers md = some l ∧ st.attached md = [l]

section Invariant

variable {loaded : List W} {st t : State W D} {w : W}

omit [DecidableEq W]

theorem initial_inv (links : Links W) : Inv [] (initial links : State W D) where
  pool := rfl
  tail _ first := nomatch first
  among := Sublist.slnil
  klass := rfl
  klassTail _ first := nomatch first
  lists _ := Or.inl ⟨rfl, rfl⟩

theorem Inv.intact (inv : Inv loaded st) : Intact st where
  pool := inv.pool
  lists md := by
    rcases inv.lists md with ⟨empty, none⟩ | ⟨l, last, first, one⟩
    · rw [none]
      exact empty
    · obtain ⟨front, split⟩ := getLast?_eq_some_iff.mp last
      have pool := inv.pool
      rw [split] at pool
      rw [one, first]
      exact pool.suffix

theorem Inv.klass_mem (inv : Inv loaded st) {k : W} (first : st.manager.klassLoadWatchers = some k) :
    k ∈ st.subscribed := inv.among.subset (mem_of_head? (inv.klass.symm.trans first))

/-- If the first watcher of `loaded` is the last of the pool, it is the only one. -/
theorem Inv.loaded_eq (inv : Inv loaded st) (last : st.subscribed.getLast? = some w)
    (first : loaded.head? = some w) : loaded = [w] := by
  obtain ⟨rest, rfl⟩ := head?_eq_some_iff.mp first
  obtain ⟨front, back, split, mem, sub⟩ := cons_sublist_iff.mp inv.among
  have nodup := inv.pool.nodup
  rw [split] at last nodup
  obtain rfl | ⟨back, v, rfl⟩ := eq_nil_or_concat back
  · rw [sublist_nil.mp sub]
  · rw [concat_eq_append, ← append_assoc, getLast?_concat,
      Option.some.injEq] at last
    have again : w ∈ back.concat v := by simp [last]
    exact absurd rfl ((nodup_append.mp nodup).2.2 w mem w again)

end Invariant

/-! ### Subscribing -/

section Subscribe

variable {loaded : List W} {st t : State W D} {w : W}

/-- The first `DL_APPEND` of `subscribe`, for a new watcher while no descriptor has one. -/
theorem Inv.pool_append (inv : Inv loaded st) (fresh : w ∉ st.subscribed)
    (free : ∀ md, st.attached md = []) :
    ∃ links wpool, dlAppend st.manager.links st.manager.wpool w = some (links, wpool) ∧
      Inv loaded { st with
        manager := { st.manager with links, wpool }
        subscribed := st.subscribed ++ [w] } := by
  have lists md : st.manager.watchers md = none ∧ st.attached md = [] := by
    rcases inv.lists md with empty | ⟨l, -, -, one⟩
    · exact empty
    · exact nomatch one.symm.trans (free md)
  obtain empty | ⟨front, l, split⟩ := eq_nil_or_concat st.subscribed
  · have none : st.manager.wpool = none := by
      rw [inv.pool.head_eq, empty]
      rfl
    have noneLoaded : loaded = [] := sublist_nil.mp (empty ▸ inv.among)
    rw [none]
    refine ⟨_, _, dlAppend_none, ?_⟩
    rw [empty]
    constructor
    · exact ⟨rfl, update_self ..⟩
    · rintro _ ⟨⟩
      exact update_self ..
    · rw [noneLoaded]
      exact nil_sublist _
    · exact inv.klass
    · intro k first
      exact nomatch (first.symm.trans inv.klass).trans (congrArg head? noneLoaded)
    · exact fun md => Or.inl (lists md)
  · rw [concat_eq_append] at split
    obtain ⟨h, first⟩ : ∃ h, st.manager.wpool = some h := by
      rw [inv.pool.head_eq, split]
      exact Option.isSome_iff_exists.mp (by simp)
    have last : st.manager.links.prev h = some l := by
      rw [inv.tail h first, split, getLast?_concat]
    have pool := inv.pool
    rw [first, split] at pool
    have apart := nodup_append.mp pool.nodup
    have notLast : l ≠ w := by
      rintro rfl
      exact fresh (split ▸ mem_concat_self)
    rw [first, dlAppend_some last]
    refine ⟨_, _, rfl, ?_⟩
    constructor
    · rw [split, append_assoc]
      refine Chain.snoc pool ?_ ?_ (update_self ..)
      · intro v mem
        have notNew : v ≠ w := by
          rintro rfl
          exact fresh (split ▸ mem_append_left _ mem)
        dsimp only
        rw [update_of_ne notNew]
        exact update_of_ne (apart.2.2 v mem l mem_cons_self) ..
      · dsimp only
        rw [update_of_ne notLast, update_self]
    · rintro _ ⟨⟩
      dsimp only
      rw [update_self]
      exact getLast?_concat.symm
    · exact inv.among.trans (sublist_append_left ..)
    · exact inv.klass
    · intro k firstLoaded notFirst
      have notNew : k ≠ w := by
        rintro rfl
        exact fresh (inv.klass_mem firstLoaded)
      have other : k ≠ h := fun same => notFirst (congrArg some same.symm)
      dsimp only
      rw [update_of_ne other, update_of_ne notNew]
      exact inv.klassTail k firstLoaded fun same => notFirst (first.symm.trans same)
    · exact fun md => Or.inl (lists md)

/-- The second `DL_APPEND` of `subscribe`. Where it finds the watcher that was last before, or the
new one itself, no link to a next watcher changes. -/
theorem Inv.klass_append {front : List W} (inv : Inv loaded st)
    (split : st.subscribed = front ++ [w]) (before : loaded.Sublist front)
    (allowed : loaded = [] ∨ loaded.head? = st.manager.wpool ∨ loaded.getLast? = front.getLast?)
    (free : ∀ md, st.attached md = []) :
    ∃ links klassLoadWatchers,
      dlAppend st.manager.links st.manager.klassLoadWatchers w = some (links, klassLoadWatchers) ∧
      Inv (loaded ++ [w]) { st with manager := { st.manager with links, klassLoadWatchers } } := by
  have last : st.subscribed.getLast? = some w := by rw [split, getLast?_concat]
  have ends : st.manager.links.next w = none := by
    have pool := inv.pool
    rw [split] at pool
    exact pool.next_last
  -- everything follows from these facts on the new links
  suffices facts : ∃ links klass,
      dlAppend st.manager.links st.manager.klassLoadWatchers w = some (links, klass) ∧
      links.next = st.manager.links.next ∧
      (∀ h, st.manager.wpool = some h → links.prev h = some w) ∧
      klass = (loaded ++ [w]).head? ∧
      ∀ k, klass = some k → st.manager.wpool ≠ some k → links.prev k = some w by
    obtain ⟨links, klassHead, out, same, tail, klass, klassTail⟩ := facts
    refine ⟨links, klassHead, out, ?_⟩
    constructor
    · exact inv.pool.congr fun v _ => congrFun same v
    · exact fun h first => (tail h first).trans last.symm
    · rw [split]
      exact before.append (Sublist.refl [w])
    · exact klass
    · exact fun k first other => (klassTail k first other).trans getLast?_concat.symm
    · intro md
      rcases inv.lists md with empty | ⟨l, -, -, one⟩
      · exact Or.inl empty
      · exact nomatch one.symm.trans (free md)
  cases loaded with
  | nil =>
    have none : st.manager.klassLoadWatchers = Option.none := inv.klass
    rw [none, dlAppend_none]
    refine ⟨_, _, rfl, ?_, ?_, rfl, ?_⟩
    · exact (congrArg _ ends.symm).trans (update_eq_self ..)
    · intro h first
      by_cases same : h = w
      · rw [same]
        exact update_self ..
      · exact (update_of_ne same ..).trans ((inv.tail h first).trans last)
    · rintro _ ⟨⟩ -
      exact update_self ..
  | cons k rest =>
    have first : st.manager.klassLoadWatchers = some k := inv.klass
    obtain ⟨tail, tailEq, sameNext⟩ : ∃ tail, st.manager.links.prev k = some tail ∧
        update (update st.manager.links.next tail (some w)) w none = st.manager.links.next := by
      by_cases same : st.manager.wpool = some k
      · refine ⟨w, (inv.tail k same).trans last, ?_⟩
        rw [update_idem]
        exact (congrArg _ ends.symm).trans (update_eq_self ..)
      · have sameLast : (k :: rest).getLast? = front.getLast? := by
          rcases allowed with empty | head | equal
          · exact nomatch empty
          · exact absurd head.symm same
          · exact equal
        have nonempty : (k :: rest).getLast?.isSome := getLast?_isSome.mpr nofun
        obtain ⟨l, isLast⟩ := Option.isSome_iff_exists.mp nonempty
        obtain ⟨start, cut⟩ := getLast?_eq_some_iff.mp (sameLast.symm.trans isLast)
        have link : st.manager.links.next l = some w := by
          have pool := inv.pool
          rw [split, cut, append_assoc] at pool
          exact pool.next_eq
        refine ⟨l, (inv.klassTail k first same).trans isLast, ?_⟩
        rw [← link, update_eq_self, ← ends]
        exact update_eq_self ..
    rw [first, dlAppend_some tailEq]
    refine ⟨_, _, rfl, sameNext, ?_, rfl, ?_⟩
    · intro h firstPool
      by_cases same : h = k
      · rw [same]
        exact update_self ..
      · have notNew : h ≠ w := by
          rintro rfl
          have pool := inv.pool
          rw [firstPool, split] at pool
          cases front with
          | nil => exact nomatch before
          | cons x front =>
            have twice := (nodup_cons.mp pool.nodup).1
            rw [← Option.some.inj pool.1] at twice
            exact absurd mem_concat_self twice
        dsimp only
        rw [update_of_ne same, update_of_ne notNew, inv.tail h firstPool, last]
    · rintro _ ⟨⟩ -
      exact update_self ..

theorem subscribe_keeps {methodLoaded : W → Bool}
    (inv : Inv (st.subscribed.filter methodLoaded) st)
    (allowed : Allowed methodLoaded st (.subscribe w)) :
    ∃ manager, st.manager.subscribe methodLoaded w = some manager ∧
      Inv ((st.subscribed ++ [w]).filter methodLoaded)
        { st with manager, subscribed := st.subscribed ++ [w] } := by
  obtain ⟨fresh, free, callbacks⟩ := allowed
  obtain ⟨links, wpool, out, appended⟩ := inv.pool_append fresh free
  rw [Manager.subscribe, out, filter_append]
  dsimp only [Option.bind_eq_bind, Option.bind_some]
  by_cases has : methodLoaded w = true
  · have ready : st.subscribed.filter methodLoaded = [] ∨
        (st.subscribed.filter methodLoaded).head? = wpool ∨
        (st.subscribed.filter methodLoaded).getLast? = st.subscribed.getLast? := by
      rcases callbacks has with noneBefore | ⟨v, first, hasFirst⟩ | ⟨v, last, hasLast⟩
      · refine Or.inl (filter_eq_nil_iff.mpr fun v mem => ?_)
        rw [noneBefore v mem]
        exact Bool.false_ne_true
      · refine Or.inr (Or.inl ?_)
        obtain ⟨rest, split⟩ := head?_eq_some_iff.mp first
        have head : wpool = (st.subscribed ++ [w]).head? := appended.pool.head_eq
        rw [head, split, filter_cons_of_pos hasFirst]
        rfl
      · refine Or.inr (Or.inr ?_)
        obtain ⟨front, split⟩ := getLast?_eq_some_iff.mp last
        rw [split, filter_append, filter_cons_of_pos hasLast, filter_nil,
          getLast?_concat, getLast?_concat]
    rw [if_pos has, filter_cons_of_pos has, filter_nil]
    obtain ⟨links', klass, out', appended'⟩ := appended.klass_append rfl filter_sublist ready free
    exact ⟨_, congrArg (Option.bind · _) out', appended'⟩
  · rw [if_neg has, filter_cons_of_neg has, filter_nil, append_nil]
    exact ⟨_, rfl, appended⟩

end Subscribe

/-! ### Broadcasting -/

section Broadcast

variable [DecidableEq D] {loaded : List W} {st : State W D} {md : D} {attach : W → Bool}

theorem broadcastLoop_skip {m : Manager W D} {head : Option W} {front back done : List W}
    (fuel : Nat) (chain : Chain m.links.next head (front ++ back))
    (refused : ∀ w ∈ front, attach w = false) :
    m.broadcastLoop attach md (front.length + fuel) head done =
      m.broadcastLoop attach md fuel back.head? done := by
  induction front generalizing head with
  | nil => rw [chain.head_eq, length_nil, Nat.zero_add, nil_append]
  | cons w front ih =>
    obtain ⟨rfl, rest⟩ := chain
    have refuses : ¬attach w = true := by
      rw [refused w mem_cons_self]
      exact Bool.false_ne_true
    rw [length_cons, Nat.add_right_comm, Manager.broadcastLoop, if_neg refuses]
    exact ih rest fun v mem => refused v (mem_cons_of_mem _ mem)

/-- Only the last watcher attaches, and the list was empty: no link to a next one changes. -/
theorem Inv.attach_last {w : W} (inv : Inv loaded st) (last : st.subscribed.getLast? = some w)
    (empty : st.attached md = []) :
    ∃ manager, st.manager.attachTo md w = some manager ∧
      Inv loaded { st with
        manager
        attached := update st.attached md (st.attached md ++ [w]) } := by
  have none : st.manager.watchers md = none := by
    rcases inv.lists md with ⟨none, -⟩ | ⟨l, -, -, one⟩
    · exact none
    · exact nomatch one.symm.trans empty
  obtain ⟨front, split⟩ := getLast?_eq_some_iff.mp last
  have ends : st.manager.links.next w = Option.none := by
    have pool := inv.pool
    rw [split] at pool
    exact pool.next_last
  have prevOf v (before : st.manager.links.prev v = some w) :
      update st.manager.links.prev w (some w) v = some w := by
    by_cases same : v = w
    · rw [same]
      exact update_self ..
    · exact (update_of_ne same ..).trans before
  rw [Manager.attachTo, none, dlAppend_none]
  refine ⟨_, rfl, ?_⟩
  constructor
  · refine inv.pool.congr fun v _ => ?_
    rw [← ends, update_eq_self]
  · intro h first
    exact (prevOf h ((inv.tail h first).trans last)).trans last.symm
  · exact inv.among
  · exact inv.klass
  · intro k first other
    by_cases same : k = w
    · subst same
      have one := inv.loaded_eq last (inv.klass.symm.trans first)
      rw [one]
      exact update_self ..
    · exact (update_of_ne same ..).trans (inv.klassTail k first other)
  · intro md'
    dsimp only
    by_cases same : md' = md
    · refine Or.inr ⟨w, last, ?_, ?_⟩
      · rw [same, update_self]
      · rw [same, update_self, empty]
        rfl
    · rw [update_of_ne same, update_of_ne same]
      exact inv.lists md'

theorem broadcast_keeps {methodLoaded : W → Bool} (inv : Inv loaded st)
    (allowed : Allowed methodLoaded st (.broadcast md attach)) :
    ∃ manager done, st.manager.broadcast st.subscribed.length md attach = some (manager, done) ∧
      Inv loaded { st with
        manager
        attached := update st.attached md (st.attached md ++ done) } := by
  rw [Manager.broadcast]
  by_cases some : ∃ w ∈ st.subscribed, attach w = true
  · obtain ⟨w, mem, agrees⟩ := some
    obtain ⟨last, empty⟩ := allowed w mem agrees
    obtain ⟨manager, out, kept⟩ := inv.attach_last last empty
    obtain ⟨front, split⟩ := getLast?_eq_some_iff.mp last
    have pool := inv.pool
    rw [split] at pool
    have refused v (early : v ∈ front) : attach v = false := by
      by_contra other
      have isLast := (allowed v (split ▸ mem_append_left _ early)
        ((Bool.not_eq_false _).mp other)).1
      rw [last, Option.some.injEq] at isLast
      exact (nodup_append.mp pool.nodup).2.2 v early w mem_cons_self isLast.symm
    have ends : manager.links.next w = none := by
      have kept := kept.pool
      rw [split] at kept
      exact kept.next_last
    refine ⟨manager, [w], ?_, kept⟩
    rw [split, length_append, broadcastLoop_skip _ pool refused, head?_cons,
      length_singleton, Manager.broadcastLoop, if_pos agrees, out]
    dsimp only [Option.bind_eq_bind, Option.bind_some]
    rw [ends]
    rfl
  · have refused w (mem : w ∈ st.subscribed) : attach w = false :=
      Bool.eq_false_iff.mpr fun agrees => some ⟨w, mem, agrees⟩
    have pool := inv.pool
    rw [← append_nil st.subscribed] at pool
    refine ⟨st.manager, [], broadcastLoop_skip 0 pool refused, ?_⟩
    rw [append_nil, update_eq_self]
    exact inv

end Broadcast

/-! ### Runs -/

section Runs

variable [DecidableEq D] {methodLoaded : W → Bool}

/-- The invariant of the whole state. -/
def Sound (methodLoaded : W → Bool) (st : State W D) : Prop :=
  Inv (st.subscribed.filter methodLoaded) st

theorem step_keeps {st : State W D} {e : Event W D} (sound : Sound methodLoaded st)
    (allowed : Allowed methodLoaded st e) :
    ∃ t, step methodLoaded st e = some t ∧ Sound methodLoaded t := by
  cases e with
  | subscribe w =>
    obtain ⟨manager, out, kept⟩ := subscribe_keeps sound allowed
    exact ⟨_, congrArg (Option.bind · _) out, kept⟩
  | broadcast md attach =>
    obtain ⟨manager, done, out, kept⟩ := broadcast_keeps sound allowed
    exact ⟨_, congrArg (Option.bind · _) out, kept⟩

/-- If every event is allowed when it comes, the run returns, with all lists as they should be. -/
theorem lists_intact {links : Links W} {es : List (Event W D)}
    (allowed : ∀ front e back st, es = front ++ e :: back →
      run (step methodLoaded) (initial links) front = some st → Allowed methodLoaded st e) :
    (run (step methodLoaded) (initial links) es).isSome ∧
      Along (step methodLoaded) Intact (initial links) es := by
  have start : Sound methodLoaded (initial links : State W D) := initial_inv links
  obtain ⟨returns, along⟩ := run_of_guards (fun _ _ => step_keeps) start allowed
  exact ⟨returns, along.mono fun _ sound => sound.intact⟩

/-- Two watchers subscribe, and the last one attaches to a descriptor. -/
theorem lists_intact_last_attaches :
    (run (step fun _ : Bool => true) (initial ⟨fun _ => none, fun _ => none⟩)
        [.subscribe false, .subscribe true, .broadcast () id]).isSome ∧
      Along (step fun _ : Bool => true) Intact (initial ⟨fun _ => none, fun _ => none⟩)
        [.subscribe false, .subscribe true, .broadcast () id] := by
  refine lists_intact fun front e back st split reached => ?_
  match front, split with
  | [], split =>
    cases split
    cases reached
    exact ⟨nofun, fun _ => rfl, fun _ => .inl nofun⟩
  | [_], split =>
    cases split
    cases reached
    exact ⟨by decide, fun _ => rfl, fun _ => .inr (.inl ⟨false, rfl, rfl⟩)⟩
  | [_, _], split =>
    cases split
    cases reached
    rintro w - attaches
    cases attaches
    exact ⟨rfl, rfl⟩
  | _ :: _ :: _ :: _, split => simp at split

/-- Of two watchers the first one attaches to a descriptor: the second is gone from the pool. -/
theorem attaching_cuts_pool :
    ∃ st, run (step fun _ : Bool => false) (initial ⟨fun _ => none, fun _ => none⟩)
        [.subscribe false, .subscribe true, .broadcast () fun w => !w] = some st ∧
      st.subscribed = [false, true] ∧ Chain st.manager.links.next st.manager.wpool [false] ∧
      ¬Intact st := by
  have reached : (run (step fun _ : Bool => false) (initial ⟨fun _ => none, fun _ => none⟩)
      [.subscribe false, .subscribe true, .broadcast () fun w => !w]).map (fun st =>
        (st.subscribed, st.manager.wpool, st.manager.links.next false)) =
      some ([false, true], some false, none) := by decide +kernel
  obtain ⟨st, out, parts⟩ := Option.map_eq_some_iff.mp reached
  simp only [Prod.mk.injEq] at parts
  obtain ⟨subscribed, pool, next⟩ := parts
  have short : Chain st.manager.links.next st.manager.wpool [false] := by
    rw [pool]
    exact ⟨rfl, next⟩
  refine ⟨st, out, subscribed, short, fun intact => ?_⟩
  have same := intact.pool.unique short
  rw [subscribed] at same
  exact nomatch same

end Runs

end WatcherLists
