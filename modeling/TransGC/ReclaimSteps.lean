import TransGC.ReclaimInvariant

/-!
# Every orderly access keeps the invariant

An access is orderly if no thread takes eden `j` or begins to reclaim it while another one is
between its check and its `clear` of `j`. The file goes through the code access by access.
-/
namespace ReclaimSteps
open ReclaimRace ReclaimInvariant Function Option

variable {id : Nat} {a b : Mutator} {threads : Nat → Option Mutator} {cores : Nat → Core}
  {after : Option Nat}

/-! ### The reset of an eden -/

variable {vm : VM} {j : Nat}

/-- The thread comes to a place at which it relies on nothing, without taking the lock. -/
def Plainly (a b : Mutator) : Prop :=
  Pc.plain b.pc = true ∧ b.monitored = a.monitored ∧ (b.transID = a.transID ∨ b.transID = -1) ∧
    (Pc.locked b.pc = true → Pc.locked a.pc = true)

theorem reclaimFrom_plain (config : Config) (thread : Mutator) (j : Nat) :
    Plainly thread (reclaimFrom config thread j) := by
  unfold reclaimFrom
  split <;> exact ⟨rfl, rfl, .inl rfl, nofun⟩

section Accesses

variable (inv : Holds vm) (entry : vm.threads id = some a)
include inv entry

theorem reclaim_setState_holds (pc : a.pc = .reclaim j .setState) :
    Inv (update vm.threads id (some (a.goto (.reclaim j .resetTransID))))
      (update (coresOf vm.mem) j
        (coreOf ((vm.mem.edens j).setState (-1) .available))) vm.lock vm.newTransID := by
  have idle : (vm.mem.edens j).serving = none := (inv.reclaimStage entry pc).idle
  obtain ⟨tid, eden, monitored, count, here⟩ := a
  cases pc
  refine inv.write entry (j := j) ⟨rfl, ⟨rfl, rfl⟩, ?_, rfl, rfl, rfl, nofun, inv.knownEden j, ?_,
    fun _ _ => rfl, nofun, ?_⟩
  · refine ⟨?_, by simp, fun _ => ?_, by simp⟩
    · rw [update_self]
      exact idle
    · rw [update_self]
      rfl
  · intro tid serves
    exact absurd (idle.symm.trans serves) nofun
  · intro k c here monitored valid _ running named
    by_cases same : k = id
    · subst same
      rw [entry] at here
      cases here
      exact inv.named entry monitored valid rfl named
    · exact inv.named here monitored valid (running same) named

theorem reclaim_resetTransID_holds (pc : a.pc = .reclaim j .resetTransID) :
    Inv (update vm.threads id (some (a.goto (.reclaim j .resetThreadCount))))
      (update (coresOf vm.mem) j (coreOf { vm.mem.edens j with transID := -1 })) vm.lock
      vm.newTransID := by
  have stage := inv.reclaimStage entry pc
  have idle : (vm.mem.edens j).serving = none := stage.idle
  have reset : (vm.mem.edens j).state = .available := stage.named rfl
  obtain ⟨tid, eden, monitored, count, here⟩ := a
  cases pc
  refine inv.write entry (j := j) ⟨rfl, ⟨rfl, rfl⟩, ?_, rfl, rfl, rfl, nofun, inv.counter, ?_,
    fun _ named => absurd rfl named, ?_, ?_⟩
  · refine ⟨?_, by simp, by simp, fun _ _ _ => ?_⟩
    · rw [update_self]
      exact idle
    · rw [update_self]
      exact ⟨reset, rfl⟩
  · intro tid serves
    exact absurd (idle.symm.trans serves) nofun
  · intro ended
    exact absurd (reset.symm.trans ended) nofun
  · intro k c here monitored valid _ running named
    exact absurd named.symm valid

theorem reclaim_holds (config : Config) {point : ReclaimPoint} (pc : a.pc = .reclaim j point) :
    Inv (update vm.threads id (some ((reclaimStep vm.mem j point).2.elim
        (reclaimFrom config a (j + 1)) fun point => a.goto (.reclaim j point))))
      (coresOf (reclaimStep vm.mem j point).1) vm.lock vm.newTransID := by
  have stage := inv.reclaimStage entry pc
  have stay : ∀ {next mem}, coresOf mem = coresOf vm.mem → ReclaimStage (coresOf vm.mem j) next →
      Inv (update vm.threads id (some (a.goto (.reclaim j next)))) (coresOf mem) vm.lock
        vm.newTransID := by
    intro next mem same stage'
    rw [same]
    exact inv.move entry (.reclaiming pc stage') (inv.handles entry nofun)
  cases point with
  | decreaseCollectable seen =>
    have due : ∀ r : Option (Option Int),
        (∃ seen, r.elim .setState .decreaseCollectable = ReclaimPoint.decreaseCollectable seen) ∨
          r.elim .setState .decreaseCollectable = ReclaimPoint.setState := by
      rintro (_ | seen)
      · exact .inr rfl
      · exact .inl ⟨seen, rfl⟩
    exact stay (cores_of_edens (changeSharedIntByOne_edens ..))
      (stage.collectable (.inl ⟨_, rfl⟩) (due _))
  | setState =>
    have written := reclaim_setState_holds inv entry pc
    rw [← cores_setEden] at written
    exact written
  | resetTransID =>
    have written := reclaim_resetTransID_holds inv entry pc
    rw [← cores_setEden] at written
    exact written
  | resetThreadCount | resetOverflowed =>
    exact stay (cores_setEden_same rfl) (stage.settled (by simp [Settled]) (by simp [Settled]))
  | decreaseAssigned seen =>
    have settled : ∀ r : Option (Option Int),
        Settled (r.elim (.increaseAvailable none) .decreaseAssigned) := by
      rintro (_ | seen) <;> simp [Settled]
    exact stay (cores_of_edens (changeSharedIntByOne_edens ..))
      (stage.settled (by simp [Settled]) (settled _))
  | increaseAvailable seen =>
    have settled : ∀ r : Option (Option Int), Settled (r.elim .clear .increaseAvailable) := by
      rintro (_ | seen) <;> simp [Settled]
    exact stay (cores_of_edens (changeSharedIntByOne_edens ..))
      (stage.settled (by simp [Settled]) (settled _))
  | clear =>
    obtain ⟨plain, monitored, tid, unlocked⟩ := reclaimFrom_plain config a (j + 1)
    have kept : coresOf (reclaimStep vm.mem j .clear).1 = coresOf vm.mem := cores_setEden_same rfl
    rw [kept]
    refine inv.move entry (.toPlain plain monitored tid ?_ ?_) (inv.handles entry unlocked)
    · intro i inside
      rw [pc] at inside
      cases inside
      exact .inr (stage.done nofun nofun nofun).2
    · rw [pc]
      exact nofun

/-! ### The assignment of an eden -/

theorem assign_setState_holds {request : Option Nat} (pc : a.pc = .assign j .setState request) :
    Inv (update vm.threads id (some (a.goto (.assign j .setTransID request))))
      (update (coresOf vm.mem) j
        (coreOf ((vm.mem.edens j).setState a.transID .assigned))) vm.lock vm.newTransID := by
  obtain ⟨tid, eden, monitored, count, here⟩ := a
  cases pc
  have free : (vm.mem.edens j).state = .available := inv.stage entry
  -- The eden carries no ID, since nobody is in the middle of a reset of it.
  have unnamed : (vm.mem.edens j).transID = -1 := by
    by_contra named
    obtain ⟨k, c, here, inside⟩ := inv.free free named
    exact inv.apart here entry inside rfl
  refine inv.write entry (j := j) ⟨rfl, ⟨rfl, rfl⟩, ?_, rfl, rfl, rfl, nofun, inv.knownEden j,
    fun _ _ => rfl, nofun, nofun, ?_⟩
  · have here := update_self j (coreOf ((vm.mem.edens j).setState tid .assigned))
      (coresOf vm.mem)
    exact ⟨congrArg Core.serving here, (congrArg Core.transID here).trans unnamed⟩
  · intro k c here monitored valid _ _ named
    exact absurd (named.symm.trans unnamed) valid

theorem assign_setTransID_holds {request : Option Nat} (pc : a.pc = .assign j .setTransID request) :
    Inv (update vm.threads id (some (a.goto (.assign j (.increaseAssigned none) request))))
      (update (coresOf vm.mem) j (coreOf { vm.mem.edens j with transID := a.transID }))
      vm.lock vm.newTransID := by
  obtain ⟨tid, eden, monitored, count, here⟩ := a
  cases pc
  have serves : (vm.mem.edens j).serving = some tid := (inv.stage entry).1
  have held : (vm.mem.edens j).state = .assigned := inv.held (j := j) serves
  refine inv.write entry (j := j) ⟨rfl, ⟨rfl, rfl⟩, trivial, rfl, rfl, rfl, nofun, inv.known entry,
    fun _ _ => held, ?_, ?_, ?_⟩
  · intro free
    exact absurd (held.symm.trans free) nofun
  · intro ended
    exact absurd (held.symm.trans ended) nofun
  · intro k c here monitored valid _ _ named
    exact serves.trans (congrArg some named)

theorem assign_holds {point : AssignPoint}
    {request : Option Nat} (pc : a.pc = .assign j point request) :
    Inv (update vm.threads id (some ((assignStep vm.mem j a.transID point).2.elim
        (given a j request) fun point => a.goto (.assign j point request))))
      (coresOf (assignStep vm.mem j a.transID point).1) vm.lock vm.newTransID := by
  have stay : ∀ {next mem}, Pc.plain a.pc = true → Pc.plain next.pc = true →
      next.monitored = a.monitored → next.transID = a.transID → coresOf mem = coresOf vm.mem →
      Inv (update vm.threads id (some next)) (coresOf mem) vm.lock vm.newTransID :=
    fun here there monitored tid same => inv.plain entry here
      ⟨there, monitored, .inl tid, fun _ => by rw [pc]; rfl⟩ same
  cases point with
  | setState =>
    have written := assign_setState_holds inv entry pc
    rw [← cores_setEden] at written
    exact written
  | setTransID =>
    have written := assign_setTransID_holds inv entry pc
    rw [← cores_setEden] at written
    exact written
  | increaseAssigned seen =>
    have plain : ∀ r : Option (Option Int), Pc.plain (.assign j (r.elim (.decreaseAvailable none)
        .increaseAssigned) request) = true := by
      rintro (_ | seen) <;> rfl
    exact stay (by rw [pc]; rfl) (plain _) rfl rfl (cores_of_edens (changeSharedIntByOne_edens ..))
  | decreaseAvailable seen =>
    have plain : ∀ r : Option (Option Int), Pc.plain (.assign j (r.elim .readTrainingDone
        .decreaseAvailable) request) = true := by
      rintro (_ | seen) <;> rfl
    exact stay (by rw [pc]; rfl) (plain _) rfl rfl (cores_of_edens (changeSharedIntByOne_edens ..))
  | readTrainingDone =>
    simp only [assignStep]
    split
    · exact stay (by rw [pc]; rfl) rfl rfl rfl rfl
    · exact stay (by rw [pc]; rfl) rfl rfl rfl rfl
  | setTrained => exact stay (by rw [pc]; rfl) rfl rfl rfl (cores_setEden_same rfl)

/-! ### The end of a transaction -/

theorem publish_setState_holds (pc : a.pc = .publish j .setState) :
    Inv (update vm.threads id (some (a.goto (.publish j (.increaseCollectable none)))))
      (update (coresOf vm.mem) j
        (coreOf ((vm.mem.edens j).setState a.transID .collectable))) vm.lock vm.newTransID := by
  obtain ⟨tid, eden, owner, count, here⟩ := a
  cases pc
  obtain ⟨monitored, valid, serves, owns⟩ := inv.stage entry
  have released : (coreOf ((vm.mem.edens j).setState tid .collectable)).serving = none :=
    if_pos serves
  refine inv.write entry (j := j) ⟨rfl, ⟨rfl, rfl⟩, trivial, rfl, rfl, rfl, fun _ => rfl,
    inv.knownEden j, ?_, nofun, fun _ => rfl, ?_⟩
  · intro tid serves'
    exact absurd (released.symm.trans serves') nofun
  · -- The only owner of this ID is the thread itself, which is about to leave the transaction.
    intro k c here owner _ mine _ named
    have same := inv.owner here entry owner monitored (by rw [← named]; exact owns ▸ valid)
      (named.symm.trans owns)
    exact absurd (mine same) nofun

theorem publish_holds {point : PublishPoint}
    (pc : a.pc = .publish j point) :
    Inv (update vm.threads id (some ((publishStep vm.mem j a.transID
        a.threadCountsInTransaction point).2.elim (ended a) fun point => a.goto (.publish j point))))
      (coresOf (publishStep vm.mem j a.transID a.threadCountsInTransaction point).1) vm.lock
      vm.newTransID := by
  cases point with
  | setState =>
    have written := publish_setState_holds inv entry pc
    rw [← cores_setEden] at written
    exact written
  | increaseCollectable seen =>
    have kept : coresOf (publishStep vm.mem j a.transID a.threadCountsInTransaction
        (.increaseCollectable seen)).1 = coresOf vm.mem :=
      cores_of_edens (changeSharedIntByOne_edens ..)
    have later : ∀ r : Option (Option Int),
        Pc.over (.publish j (r.elim .setThreadCount .increaseCollectable)) = true ∧
          Stage (coresOf vm.mem)
            (a.goto (.publish j (r.elim .setThreadCount .increaseCollectable))) := by
      rintro (_ | seen) <;> exact ⟨rfl, trivial⟩
    rw [kept]
    refine inv.move entry ⟨rfl, .inl rfl, (later _).2, nofun, ?_, nofun, fun _ => .inl (later _).1⟩
      (inv.handles entry nofun)
    rw [pc]
    exact nofun
  | setThreadCount =>
    have kept : coresOf (publishStep vm.mem j a.transID a.threadCountsInTransaction
        .setThreadCount).1 = coresOf vm.mem := cores_setEden_same rfl
    rw [kept]
    refine inv.move entry (.toPlain rfl rfl (.inr rfl) ?_ fun _ => rfl) (inv.handles entry nofun)
    rw [pc]
    exact nofun

/-! ## Orderly runs -/

/-- No thread takes eden `j` or begins to reclaim it while another one is between its check and its
`clear` of `j`; and transaction IDs are not used up. -/
def Orderly (vm : VM) : Event → Prop
  | .worker _ true | .beginTransaction _ => vm.newTransID + 1 < 2 ^ 31
  | .act id => ∀ thread, vm.threads id = some thread →
    (∀ j, thread.pc = .reclaimState j → (vm.mem.edens j).state = .collectable →
      ∀ k other, vm.threads k = some other → k ≠ id → Pc.window other.pc ≠ some j) ∧
    ∀ j request, thread.pc = .findAvailable j request → (vm.mem.edens j).state = .available →
      ∀ k other, vm.threads k = some other → k ≠ id → Pc.window other.pc ≠ some j
  | _ => True

theorem reclaimState_holds
    (pc : a.pc = .reclaimState j) (ended : (vm.mem.edens j).state = .collectable)
    (alone : ∀ k other, vm.threads k = some other → k ≠ id → Pc.window other.pc ≠ some j) :
    Inv (update vm.threads id (some (a.goto (.reclaimTrained j)))) (coresOf vm.mem) vm.lock
      vm.newTransID := by
  refine inv.move entry ⟨rfl, .inl rfl, ⟨?_, ended⟩, ?_, ?_, nofun, ?_⟩ (inv.handles entry nofun)
  · cases serves : (vm.mem.edens j).serving with
    | none => exact serves
    | some tid => exact absurd (ended.symm.trans (inv.held (j := j) serves)) nofun
  · intro i inside
    cases inside
    refine .inr fun k c here other => ⟨alone k c here other, fun claimed => ?_⟩
    have touched : Pc.touches c.pc = some j := by
      unfold Pc.claiming at claimed
      split at claimed <;> rename_i pc
      · rw [pc]
        exact claimed
      · cases claimed
    cases inv.relies here touched with
    | claims _ _ free => exact absurd (ended.symm.trans free) nofun
    | reclaims inside _ => exact alone k c here other inside
    | names _ serves | publishes _ _ serves =>
      exact absurd (ended.symm.trans (inv.held (j := j) serves)) nofun
  · rw [pc]
    exact nofun
  · rw [pc]
    exact nofun

theorem reclaimTrained_holds (config : Config) (pc : a.pc = .reclaimTrained j) :
    Inv (update vm.threads id (some (if (vm.mem.edens j).trained = true then
        a.goto (.reclaim j (.decreaseCollectable none)) else reclaimFrom config a (j + 1))))
      (coresOf vm.mem) vm.lock vm.newTransID := by
  obtain ⟨tid, eden, monitored, count, here⟩ := a
  cases pc
  obtain ⟨idle, ended⟩ := inv.stage entry
  split
  · refine inv.move entry ⟨rfl, .inl rfl, ⟨idle, fun _ => ended, nofun, ?_⟩, ?_, ?_, nofun, nofun⟩
      (inv.handles entry nofun)
    · exact fun first => absurd rfl (first none)
    · exact fun i inside => .inl inside
    · exact fun i inside => .inl inside
  · obtain ⟨plain, monitored, tid, unlocked⟩ := reclaimFrom_plain config _ (j + 1)
    refine inv.move entry (.toPlain plain monitored tid ?_ nofun) (inv.handles entry unlocked)
    intro i inside
    cases inside
    exact .inl fun free => absurd (ended.symm.trans free) nofun

theorem findAvailable_holds {request : Option Nat}
    (pc : a.pc = .findAvailable j request) (free : (vm.mem.edens j).state = .available)
    (alone : ∀ k other, vm.threads k = some other → k ≠ id → Pc.window other.pc ≠ some j) :
    Inv (update vm.threads id (some (a.goto (.assign j .setState request)))) (coresOf vm.mem)
      vm.lock vm.newTransID := by
  obtain ⟨tid, eden, monitored, count, here⟩ := a
  cases pc
  refine inv.move entry ⟨rfl, .inl rfl, free, nofun, nofun, ?_, nofun⟩
    (inv.handles entry fun _ => rfl)
  intro i claimed
  cases claimed
  exact alone

theorem checkOwner_holds (pc : a.pc = .checkOwner j) :
    Inv (update vm.threads id (some (if (vm.mem.edens j).transID = a.transID then
        a.goto (.publish j .setState) else ended a))) (coresOf vm.mem) vm.lock vm.newTransID := by
  obtain ⟨tid, eden, owner, count, here⟩ := a
  cases pc
  obtain ⟨monitored, valid⟩ := inv.stage entry
  split
  · rename_i owns
    have serves := inv.named (j := j) entry monitored valid rfl owns
    exact inv.move entry
      ⟨rfl, .inl rfl, ⟨monitored, valid, serves, owns⟩, nofun, nofun, nofun, nofun⟩
      (inv.handles entry nofun)
  · exact inv.move entry (.toPlain rfl rfl (.inr rfl) nofun fun _ => rfl) (inv.handles entry nofun)

end Accesses

variable (config : Config) (thread : Mutator)

theorem searchFrom_plain (locked : Pc.locked thread.pc = true) (j : Nat) (request : Option Nat) :
    Plainly thread (searchFrom config thread j request) := by
  unfold searchFrom
  split <;> exact ⟨rfl, rfl, .inl rfl, fun _ => locked⟩

theorem findFrom_plain (locked : Pc.locked thread.pc = true) (j : Nat) (request : Option Nat) :
    Plainly thread (findFrom config thread j request) := by
  unfold findFrom
  split
  · exact ⟨rfl, rfl, .inl rfl, fun _ => locked⟩
  · exact ⟨rfl, rfl, .inr rfl, fun _ => locked⟩

theorem entered_plain (request : Option Nat) :
    Pc.plain (entered config thread request).pc = true ∧
      (entered config thread request).monitored = thread.monitored ∧
      (entered config thread request).transID = thread.transID := by
  unfold entered
  split
  · exact ⟨rfl, rfl, rfl⟩
  · split
    · unfold searchFrom
      split <;> exact ⟨rfl, rfl, rfl⟩
    · exact ⟨rfl, rfl, rfl⟩

variable {config}

theorem act_holds {mem : Memory} (inv : Holds vm) (entry : vm.threads id = some a)
    (orderly : Orderly vm (.act id)) (acts : act config vm id a = some (b, mem, after)) :
    Inv (update vm.threads id (some b)) (coresOf mem) after vm.newTransID := by
  obtain ⟨reclaims, finds⟩ := orderly a entry
  obtain ⟨tid, eden, owns, count, pc⟩ := a
  cases pc with
  | idle => cases acts
  | readCollectableCount | readAvailableCount | readFree | readTop =>
    cases acts
    refine inv.plain entry rfl ?_ rfl
    split <;> exact ⟨rfl, rfl, .inl rfl, nofun⟩
  | readTrainingDone =>
    cases acts
    refine inv.plain entry rfl ?_ rfl
    split
    · exact reclaimFrom_plain config _ 0
    · exact ⟨rfl, rfl, .inl rfl, nofun⟩
  | reclaimState j =>
    cases acts
    split
    · rename_i ended
      exact reclaimState_holds inv entry rfl ended (reclaims j rfl ended)
    · exact inv.plain entry rfl (reclaimFrom_plain config _ (j + 1)) rfl
  | reclaimTrained j =>
    cases acts
    exact reclaimTrained_holds inv entry config rfl
  | reclaim j point =>
    cases acts
    exact reclaim_holds inv entry config rfl
  | takeLock request =>
    dsimp only [act] at acts
    split at acts
    · rename_i free
      cases acts
      obtain ⟨plain, monitored, tid⟩ := entered_plain config _ request
      refine inv.move entry (.plain rfl plain monitored (.inl tid)) ⟨fun _ => rfl, ?_⟩
      intro k c here _ locked
      exact absurd (free.symm.trans (inv.locked here locked)) nofun
    · cases acts
  | cachedTransID | cachedState =>
    cases acts
    refine inv.plain entry rfl ?_ rfl
    split
    · exact ⟨rfl, rfl, .inl rfl, fun _ => rfl⟩
    · exact ⟨rfl, rfl, .inr rfl, fun _ => rfl⟩
  | search j request =>
    cases acts
    refine inv.plain entry rfl ?_ rfl
    split
    · exact ⟨rfl, rfl, .inl rfl, fun _ => rfl⟩
    · exact searchFrom_plain config _ rfl (j + 1) request
  | readAssignedCount request =>
    cases acts
    refine inv.plain entry rfl ?_ rfl
    split
    · exact findFrom_plain config _ rfl 0 request
    · exact ⟨rfl, rfl, .inr rfl, fun _ => rfl⟩
  | findAvailable j request =>
    cases acts
    split
    · rename_i free
      exact findAvailable_holds inv entry rfl free (finds j request rfl free)
    · exact inv.plain entry rfl (findFrom_plain config _ rfl (j + 1) request) rfl
  | assign j point request =>
    cases acts
    exact assign_holds inv entry rfl
  | release taken request =>
    cases acts
    have mine := inv.locked entry rfl
    refine inv.move entry (.plain rfl ?_ rfl (.inl rfl)) ⟨?_, ?_⟩
    · cases taken <;> cases request <;> rfl
    · cases taken <;> cases request <;> exact nofun
    · intro k c here other locked
      exact absurd (some.inj ((inv.locked here locked).symm.trans mine)) other
  | setOverflowed j =>
    cases acts
    exact inv.plain entry rfl ⟨rfl, rfl, .inl rfl, nofun⟩ (cores_setEden_same rfl)
  | swapTop j size seen =>
    dsimp only [act] at acts
    split at acts
    · cases acts
      exact inv.plain entry rfl ⟨rfl, rfl, .inl rfl, nofun⟩ (cores_setEden_same rfl)
    · cases acts
      exact inv.plain entry rfl ⟨rfl, rfl, .inl rfl, nofun⟩ rfl
  | checkOwner j =>
    cases acts
    exact checkOwner_holds inv entry rfl
  | publish j point =>
    cases acts
    exact publish_holds inv entry rfl

theorem newTransID_lt (inv : Holds vm) (room : vm.newTransID + 1 < 2 ^ 31) :
    vm.newTransID < vm.getNewTransID := by
  have low : -1 ≤ vm.newTransID := inv.counter
  unfold VM.getNewTransID
  rw [Int.bmod_eq_of_le] <;> omega

theorem call_moves (threads : Nat → Option Mutator) (cores : Nat → Core) (id : Nat)
    {config : Config} {routine : Call} (runs : a.pc = .idle)
    (called : call config a routine = some b) : Moves threads cores id a b ∧ Pc.locked b.pc = false := by
  have here : Pc.plain a.pc = true := by rw [runs]; rfl
  cases routine with
  | collectResettableTransEden | getTransEdenToAllocate =>
    cases called
    exact ⟨.plain here rfl rfl (.inl rfl), rfl⟩
  | endTransaction =>
    simp only [call] at called
    split at called
    · rename_i owns
      split at called
      · cases called
        refine ⟨⟨rfl, .inl rfl, owns, nofun, ?_, nofun, ?_⟩, rfl⟩
        · rw [runs]
          exact nofun
        · rw [runs]
          exact nofun
      · cases called
        exact ⟨.plain here rfl rfl (.inr rfl), rfl⟩
    · cases called

theorem step_holds {config : Config} {vm' : VM} {e : Event} (inv : Holds vm)
    (orderly : Orderly vm e) (stepped : step config vm e = some vm') : Holds vm' := by
  cases e with
  | worker k begins =>
    simp only [step] at stepped
    split at stepped
    · cases stepped
    · rename_i fresh
      have gone : ∀ a, vm.threads k = some a → a.pc = .idle := by
        intro a here
        simp [here] at fresh
      split at stepped
      · rename_i begins'
        subst begins'
        cases stepped
        have rises := newTransID_lt inv orderly
        exact inv.renew gone rfl (le_of_lt rises) (le_refl _) fun _ => .inr rises
      · cases stepped
        exact inv.renew gone rfl (le_refl _) inv.counter fun _ => .inl rfl
  | child k parent =>
    simp only [step] at stepped
    split at stepped
    · cases stepped
    · rename_i fresh
      obtain ⟨owner, here, rfl⟩ := map_eq_some_iff.mp stepped
      have known : owner.transID ≤ vm.newTransID := inv.known here
      refine inv.renew (fun a here => ?_) rfl (le_refl _) known nofun
      simp [here] at fresh
  | beginTransaction k =>
    obtain ⟨thread, here, begun⟩ := bind_eq_some_iff.mp stepped
    split at begun
    · rename_i runs
      cases begun
      have rises := newTransID_lt inv orderly
      refine inv.renew (fun a here' => ?_) runs.2 (le_of_lt rises) (le_refl _)
        fun _ => .inr rises
      rw [here] at here'
      cases here'
      exact runs.2
    · cases begun
  | call k routine =>
    obtain ⟨thread, here, calls⟩ := bind_eq_some_iff.mp stepped
    split at calls
    · rename_i runs
      obtain ⟨next, called, rfl⟩ := map_eq_some_iff.mp calls
      obtain ⟨moves, unlocked⟩ := call_moves vm.threads (coresOf vm.mem) k runs called
      exact inv.move here moves (inv.handles here fun locked =>
        absurd (unlocked.symm.trans locked) nofun)
    · cases calls
  | act k =>
    obtain ⟨thread, here, moved⟩ := bind_eq_some_iff.mp stepped
    obtain ⟨⟨next, mem, lock⟩, acts, rfl⟩ := map_eq_some_iff.mp moved
    exact act_holds inv here orderly acts
  | exit k =>
    obtain ⟨thread, here, left⟩ := bind_eq_some_iff.mp stepped
    split at left
    · rename_i runs
      cases left
      refine inv.leave fun a here' => ?_
      rw [here] at here'
      cases here'
      exact runs.1
    · cases left
  | trainingEnds =>
    cases stepped
    exact inv

end ReclaimSteps
