/-
Bootstrapping a cluster: `Bootstrap` of `internal/pd/server.go`.

The flag is checked in one call and set in a later one, or by a command that does not look at it;
and the callback of a command gets the result of whatever command is committed next.
`bootstrap_once_iff` says for both modes when the cluster is bootstrapped once.
-/
import Gookv.PdServer
import Gookv.StepSystem

namespace Pd

open Function List StepSystem

structure BootstrapRequest where
  store : Option Store
  region : Option Region
  deriving DecidableEq

structure State.Holds (s : State) (req : BootstrapRequest) : Prop where
  bootstrapped : s.bootstrapped = true
  stores : ∀ id, s.stores id = req.store.filter fun store => store.id = id
  regions : ∀ id, s.regions id = req.region.filter fun region => region.id = id

open State

theorem State.stores_putStore {s : State} (hs : ∀ id, s.stores id = none)
    (store : Option Store) (id : ℕ) :
    (s.putStore store).stores id = store.filter fun store => store.id = id := by
  cases store with
  | none => exact hs id
  | some store =>
    rw [putStore, Option.filter_some]
    by_cases hid : store.id = id
    · simp [hid]
    · simp [hid, hs, Ne.symm hid]

theorem State.regions_putRegion {s : State} (hs : ∀ id, s.regions id = none)
    (region : Option Region) (id : ℕ) :
    (s.putRegion region none).regions id = region.filter fun region => region.id = id := by
  cases region with
  | none => exact hs id
  | some region =>
    rw [putRegion, hs, if_neg (by simp), Option.filter_some]
    by_cases hid : region.id = id
    · simp [hid]
    · simp [hid, hs, Ne.symm hid]

theorem State.stores_putRegion (s : State) (region : Option Region) (leader : Option Peer) :
    (s.putRegion region leader).stores = s.stores := by
  cases region with
  | none => rfl
  | some region =>
    rw [putRegion]
    split
    · rfl
    · rfl

theorem State.bootstrapped_putRegion (s : State) (region : Option Region)
    (leader : Option Peer) : (s.putRegion region leader).bootstrapped = s.bootstrapped := by
  cases region with
  | none => rfl
  | some region =>
    rw [putRegion]
    split
    · rfl
    · rfl

theorem State.regions_putStore (s : State) (store : Option Store) :
    (s.putStore store).regions = s.regions := by
  cases store with
  | none => rfl
  | some store => rfl

theorem State.bootstrapped_putStore (s : State) (store : Option Store) :
    (s.putStore store).bootstrapped = s.bootstrapped := by
  cases store with
  | none => rfl
  | some store => rfl

theorem State.put_of_empty {s : State} (hstores : ∀ id, s.stores id = none)
    (hregions : ∀ id, s.regions id = none) (req : BootstrapRequest) (id : ℕ) :
    ((s.putStore req.store).putRegion req.region none).stores id =
        req.store.filter (fun store => store.id = id) ∧
      ((s.putStore req.store).putRegion req.region none).regions id =
        req.region.filter fun region => region.id = id := by
  constructor
  · rw [stores_putRegion]
    exact stores_putStore hstores req.store id
  · refine regions_putRegion (fun id => ?_) req.region id
    rw [regions_putStore]
    exact hregions id

namespace Bootstrap

variable {ι : Type}

/-! ### A single PD -/

/-- After the check, after `PutStore`, after `PutRegion`, answered without and with an error. -/
inductive Phase
  | received
  | checked
  | storePut
  | regionPut
  | ok
  | rejected
  deriving DecidableEq

def Phase.Passed : Phase → Prop
  | .received => False
  | .rejected => False
  | _ => True

structure Direct (ι : Type) where
  memory : State
  phase : ι → Phase

namespace Direct

def step [DecidableEq ι] (requests : ι → BootstrapRequest) (s : Direct ι) (i : ι) :
    Option (Direct ι) :=
  match s.phase i with
  | .received =>
    some { s with
      phase := update s.phase i (if s.memory.bootstrapped then .rejected else .checked) }
  | .checked =>
    some
      { memory := s.memory.putStore (requests i).store
        phase := update s.phase i .storePut }
  | .storePut =>
    some
      { memory := s.memory.putRegion (requests i).region none
        phase := update s.phase i .regionPut }
  | .regionPut =>
    some
      { memory := { s.memory with bootstrapped := true }
        phase := update s.phase i .ok }
  | .ok => none
  | .rejected => none

def system [DecidableEq ι] (requests : ι → BootstrapRequest) : StepSystem (Direct ι) ι where
  start := ⟨.initial, fun _ => .received⟩
  step := step requests

def memoryAt (req : BootstrapRequest) : Phase → State
  | .received => .initial
  | .checked => .initial
  | .storePut => State.initial.putStore req.store
  | .regionPut => (State.initial.putStore req.store).putRegion req.region none
  | .ok =>
    { (State.initial.putStore req.store).putRegion req.region none with bootstrapped := true }
  | .rejected => .initial

theorem holds_memoryAt_ok (req : BootstrapRequest) : (memoryAt req .ok).Holds req where
  bootstrapped := rfl
  stores id := by
    show ((initial.putStore req.store).putRegion req.region none).stores id = _
    exact (put_of_empty (fun _ => rfl) (fun _ => rfl) req id).1
  regions id := by
    show ((initial.putStore req.store).putRegion req.region none).regions id = _
    exact (put_of_empty (fun _ => rfl) (fun _ => rfl) req id).2

variable {requests : ι → BootstrapRequest} {s s' : Direct ι} {i j : ι}

def OnlyPassed (s : Direct ι) (i : ι) : Prop := ∀ j, (s.phase j).Passed → j = i

theorem passed_of_ok (h : s.phase i = .ok) : (s.phase i).Passed := by
  rw [h]
  trivial

variable [DecidableEq ι]

theorem phase_of_step (h : step requests s i = some s') :
    s'.phase i = .rejected ∧ s'.memory = s.memory ∧ ¬ (s.phase i).Passed ∨
      (s'.phase i).Passed := by
  rw [step] at h
  split at h
  · rename_i hphase
    cases h
    by_cases hflag : s.memory.bootstrapped = true
    · refine .inl ⟨?_, rfl, by rw [hphase]; exact id⟩
      rw [if_pos hflag]
      exact update_self ..
    · refine .inr ?_
      rw [if_neg hflag]
      show (update s.phase i .checked i).Passed
      rw [update_self]
      trivial
  all_goals cases h
  all_goals
    refine .inr ?_
    dsimp only
    rw [update_self]
    trivial

theorem phase_of_step_ne (h : step requests s i = some s') (hj : j ≠ i) :
    s'.phase j = s.phase j := by
  rw [step] at h
  split at h
  all_goals cases h
  all_goals exact update_of_ne hj ..

theorem OnlyPassed.of_step (h : step requests s j = some s') (hs' : s'.OnlyPassed i) :
    s.OnlyPassed i := by
  intro k hk
  by_cases hkj : k = j
  · subst hkj
    rcases phase_of_step h with ⟨-, -, hnot⟩ | hpassed
    · exact absurd hk hnot
    · exact hs' k hpassed
  · exact hs' k (by rwa [phase_of_step_ne h hkj])

theorem memory_of_step (h : step requests s j = some s')
    (hs : s.memory = memoryAt (requests i) (s.phase i)) (hs' : s'.OnlyPassed i) :
    s'.memory = memoryAt (requests i) (s'.phase i) := by
  by_cases hij : i = j
  · subst hij
    rw [step] at h
    split at h
    all_goals
      rename_i hphase
      rw [hphase] at hs
    · -- the check finds the metadata as they were at the start
      have hflag : s.memory.bootstrapped = false := by
        rw [hs]
        rfl
      rw [hflag, if_neg Bool.false_ne_true] at h
      cases h
      dsimp only
      rw [update_self, hs]
      rfl
    all_goals cases h
    all_goals
      dsimp only
      rw [update_self, hs]
      rfl
  · -- any other request is rejected
    rw [phase_of_step_ne h hij, ← hs]
    rcases phase_of_step h with ⟨-, hmemory, -⟩ | hpassed
    · exact hmemory
    · exact absurd (hs' j hpassed).symm hij

theorem memory_of_onlyPassed (h : (system requests).Reachable s) (hs : s.OnlyPassed i) :
    s.memory = memoryAt (requests i) (s.phase i) := by
  refine ReachableWhen.invariant
    (P := fun s : Direct ι => s.OnlyPassed i → s.memory = memoryAt (requests i) (s.phase i))
    ?_ ?_ h hs
  · intro _
    rfl
  · intro s s' j ih _ hstep hs'
    exact memory_of_step hstep (ih (hs'.of_step hstep)) hs'

structure Once (requests : ι → BootstrapRequest) (s : Direct ι) : Prop where
  unique : ∀ i j, s.phase i = .ok → s.phase j = .ok → i = j
  holds : ∀ i, s.phase i = .ok → s.memory.Holds (requests i)

def AtMostOnePassed (s : Direct ι) : Prop :=
  ∀ i j, (s.phase i).Passed → (s.phase j).Passed → i = j

def Answered (s : Direct ι) : Prop := ∀ i, (s.phase i).Passed → s.phase i = .ok

theorem once_of_atMostOnePassed (h : (system requests).Reachable s)
    (hs : s.AtMostOnePassed) : s.Once requests where
  unique i j hi hj := hs i j (passed_of_ok hi) (passed_of_ok hj)
  holds i hi := by
    have honly : s.OnlyPassed i := fun j hj => hs j i hj (passed_of_ok hi)
    rw [memory_of_onlyPassed h honly, hi]
    exact holds_memoryAt_ok (requests i)

end Direct

/-! ### A Raft group -/

/-- `ok k` is answered by a member that has applied the first `k` entries of the log. -/
inductive RaftPhase
  | received
  | checked
  | proposed
  | ok (applied : ℕ)
  | rejected
  | failed
  deriving DecidableEq

def RaftPhase.Passed : RaftPhase → Prop
  | .received => False
  | .rejected => False
  | _ => True

/-- The log of the group; `none` is a command that leaves the flag, stores and regions alone. -/
structure Group (ι : Type) where
  log : List (Option ι)
  phase : ι → RaftPhase

inductive Action (ι : Type)
  | check (i : ι) (applied : ℕ)
  | propose (i : ι) (lost : Bool)
  | other
  | answer (i : ι) (index : ℕ)
  | fail (i : ι)
  deriving DecidableEq

def command (req : BootstrapRequest) : Command :=
  .setBootstrapped (some true) req.store req.region none

namespace Group

def entry (requests : ι → BootstrapRequest) (e : Option ι) : Entry :=
  some (e.elim .untracked fun i => command (requests i))

/-- The metadata of a member that has applied the first `applied` entries. -/
def memoryAt (requests : ι → BootstrapRequest) (s : Group ι) (applied : ℕ) : State :=
  State.initial.applyAll ((s.log.take applied).map (entry requests))

/-- A leader checks a request against what it has applied, and its command goes to the log or is
lost.  `handleReady` hands the result of any entry it applies to the callback that is first in the
queue; `ProposeAndWait` may fail before or after the command is in the log. -/
def step [DecidableEq ι] (requests : ι → BootstrapRequest) (s : Group ι) :
    Action ι → Option (Group ι)
  | .check i applied =>
    if s.phase i = .received then
      let phase := if (s.memoryAt requests applied).bootstrapped then .rejected else .checked
      some { s with phase := update s.phase i phase }
    else none
  | .propose i lost =>
    if s.phase i = .checked then
      some
        { log := if lost then s.log else s.log ++ [some i]
          phase := update s.phase i .proposed }
    else none
  | .other => some { s with log := s.log ++ [none] }
  | .answer i index =>
    if s.phase i = .proposed ∧ index < s.log.length then
      some { s with phase := update s.phase i (.ok (index + 1)) }
    else none
  | .fail i =>
    if s.phase i = .checked ∨ s.phase i = .proposed then
      some { s with phase := update s.phase i .failed }
    else none

def system [DecidableEq ι] (requests : ι → BootstrapRequest) :
    StepSystem (Group ι) (Action ι) where
  start := ⟨[], fun _ => .received⟩
  step := step requests

variable {requests : ι → BootstrapRequest} {s s' : Group ι} {i j : ι} {a : Action ι} {k : ℕ}

/-- A command is in the log at most once, and only if its request has been proposed. -/
structure Logged (s : Group ι) : Prop where
  nodup : (s.log.filterMap id).Nodup
  sent : ∀ i, some i ∈ s.log → (s.phase i).Passed ∧ s.phase i ≠ .checked

section

variable [DecidableEq ι]

theorem Logged.setPhase (h : s.Logged) (i : ι) {phase : RaftPhase}
    (hsent : some i ∈ s.log → phase.Passed ∧ phase ≠ .checked) :
    Logged { s with phase := update s.phase i phase } := by
  refine ⟨h.nodup, fun j hj => ?_⟩
  dsimp only
  by_cases hji : j = i
  · subst hji
    rw [update_self]
    exact hsent hj
  · rw [update_of_ne hji]
    exact h.sent j hj

theorem logged_of_step (h : s.Logged) (hstep : step requests s a = some s') : s'.Logged := by
  cases a with
  | check i applied =>
    obtain ⟨hphase, rfl⟩ := of_guard hstep
    -- a request that is only now checked is not in the log
    refine h.setPhase i fun hi => absurd (h.sent i hi).1 ?_
    rw [hphase]
    exact id
  | propose i lost =>
    obtain ⟨hphase, rfl⟩ := of_guard hstep
    have hphased : Logged { s with phase := update s.phase i .proposed } :=
      h.setPhase i fun _ => ⟨trivial, nofun⟩
    cases lost with
    | true => exact hphased
    | false =>
      refine ⟨?_, fun j hj => ?_⟩
      · have hi : i ∉ s.log.filterMap id := fun hmem => by
          obtain ⟨e, he, rfl⟩ := mem_filterMap.mp hmem
          exact (h.sent i he).2 hphase
        show ((s.log ++ [some i]).filterMap id).Nodup
        rw [filterMap_append]
        exact nodup_append.mpr ⟨h.nodup, nodup_singleton i, fun a ha b hb heq =>
          hi (mem_singleton.mp hb ▸ heq ▸ ha)⟩
      · rcases mem_append.mp hj with hj | hj
        · exact hphased.sent j hj
        · cases mem_singleton.mp hj
          dsimp only
          rw [update_self]
          exact ⟨trivial, nofun⟩
  | other =>
    cases hstep
    refine ⟨?_, fun j hj => h.sent j ?_⟩
    · show ((s.log ++ [none]).filterMap id).Nodup
      rw [filterMap_append]
      simpa using h.nodup
    · simpa using hj
  | answer i index | fail i =>
    obtain ⟨-, rfl⟩ := of_guard hstep
    exact h.setPhase i fun _ => ⟨trivial, nofun⟩

theorem logged_of_reachable (h : (system requests).Reachable s) : s.Logged := by
  refine ReachableWhen.invariant (P := Logged) ?_
    (fun s s' a hs _ hstep => logged_of_step hs hstep) h
  exact ⟨nodup_nil, fun i hi => absurd hi not_mem_nil⟩

end

theorem memoryAt_eq (requests : ι → BootstrapRequest) (s : Group ι) (k : ℕ) :
    s.memoryAt requests k = State.initial.applyAll
      (((s.log.take k).filterMap id).map fun i => some (command (requests i))) := by
  rw [memoryAt]
  generalize State.initial = memory
  induction s.log.take k generalizing memory with
  | nil => rfl
  | cons e es ih =>
    cases e with
    | none => exact ih memory
    | some i => exact ih (memory.applyEntry (some (command (requests i))))

/-- Each request that is answered is answered by a member that has applied its own command. -/
def AppliedOwn (s : Group ι) : Prop := ∀ i k, s.phase i = .ok k → some i ∈ s.log.take k

/-- At most one request is answered, and from then on the metadata hold its store and region. -/
structure Once (requests : ι → BootstrapRequest) (s : Group ι) : Prop where
  unique : ∀ i j k l, s.phase i = .ok k → s.phase j = .ok l → i = j
  holds : ∀ i k, s.phase i = .ok k → ∀ l ≥ k, (s.memoryAt requests l).Holds (requests i)

def AtMostOnePassed (s : Group ι) : Prop :=
  ∀ i j, (s.phase i).Passed → (s.phase j).Passed → i = j

def Answered (s : Group ι) : Prop := ∀ i, (s.phase i).Passed → ∃ k, s.phase i = .ok k

theorem holds_applyEntry (req : BootstrapRequest) :
    (State.initial.applyEntry (some (command req))).Holds req where
  bootstrapped := by
    -- applyCommand sets the flag first, and neither of the two calls takes it back
    show ((putStore _ req.store).putRegion req.region none).bootstrapped = true
    rw [bootstrapped_putRegion, bootstrapped_putStore]
  stores id := by
    show ((putStore _ req.store).putRegion req.region none).stores id = _
    exact (put_of_empty (fun _ => rfl) (fun _ => rfl) req id).1
  regions id := by
    show ((putStore _ req.store).putRegion req.region none).regions id = _
    exact (put_of_empty (fun _ => rfl) (fun _ => rfl) req id).2

theorem passed_of_ok (h : s.phase i = .ok k) : (s.phase i).Passed := by
  rw [h]
  trivial

theorem once_of_appliedOwn (h : s.Logged) (hone : s.AtMostOnePassed) (hown : s.AppliedOwn) :
    s.Once requests := by
  refine ⟨fun i j k l hi hj => hone i j (passed_of_ok hi) (passed_of_ok hj), ?_⟩
  intro i k hi l hl
  obtain ⟨es, hes⟩ : ∃ es, es = (s.log.take l).filterMap id := ⟨_, rfl⟩
  have hmem : i ∈ es := by
    rw [hes]
    exact mem_filterMap.mpr ⟨some i, (take_sublist_take_left hl).subset (hown i k hi), rfl⟩
  -- a list without repetitions that has no other element
  have hall : ∀ j ∈ es, j = i := by
    intro j hj
    obtain ⟨e, he, rfl⟩ := mem_filterMap.mp (hes ▸ hj)
    exact hone j i (h.sent j (mem_of_mem_take he)).1 (passed_of_ok hi)
  have hnodup : es.Nodup := hes ▸ h.nodup.sublist ((take_sublist _ _).filterMap id)
  have hrep := eq_replicate_of_mem hall
  rw [hrep] at hnodup
  have hle := nodup_replicate.mp hnodup
  have hpos := length_pos_of_mem hmem
  rw [memoryAt_eq, ← hes, hrep, show es.length = 1 by omega]
  exact holds_applyEntry (requests i)

theorem appliedOwn_of_once (h : s.Logged) (hone : s.AtMostOnePassed) (honce : s.Once requests) :
    s.AppliedOwn := by
  intro i k hi
  have hholds := (honce.holds i k hi k le_rfl).bootstrapped
  rw [memoryAt_eq] at hholds
  cases hes : (s.log.take k).filterMap id with
  | nil =>
    rw [hes] at hholds
    cases hholds
  | cons j es =>
    obtain ⟨e, he, rfl⟩ := mem_filterMap.mp (hes ▸ mem_cons_self : j ∈ _)
    rwa [hone i j (passed_of_ok hi) (h.sent j (mem_of_mem_take he)).1]

end Group

/-! ### Both modes -/

/-- **When a cluster is bootstrapped once.**  A single PD is, as long as at most one request finds
it not bootstrapped; a group is, if besides the answer is given for the request's own command.
When every request that passes the check is answered, they are only then. -/
theorem bootstrap_once_iff [DecidableEq ι] (requests : ι → BootstrapRequest) :
    (∀ s : Direct ι, (Direct.system requests).Reachable s →
      (s.AtMostOnePassed → s.Once requests) ∧
        (s.Answered → (s.Once requests ↔ s.AtMostOnePassed))) ∧
    ∀ s : Group ι, (Group.system requests).Reachable s →
      (s.AtMostOnePassed → (s.Once requests ↔ s.AppliedOwn)) ∧
        (s.Answered → (s.Once requests ↔ s.AtMostOnePassed ∧ s.AppliedOwn)) := by
  refine ⟨fun s h => ?_, fun s h => ?_⟩
  · refine ⟨Direct.once_of_atMostOnePassed h, fun hanswered =>
      ⟨fun honce i j hi hj => ?_, Direct.once_of_atMostOnePassed h⟩⟩
    exact honce.unique i j (hanswered i hi) (hanswered j hj)
  · have hlogged := Group.logged_of_reachable h
    have hiff : s.AtMostOnePassed → (s.Once requests ↔ s.AppliedOwn) := fun hone =>
      ⟨Group.appliedOwn_of_once hlogged hone, Group.once_of_appliedOwn hlogged hone⟩
    refine ⟨hiff, fun hanswered => ⟨fun honce => ?_, fun ⟨hone, hown⟩ => (hiff hone).mpr hown⟩⟩
    have hone : s.AtMostOnePassed := fun i j hi hj => by
      obtain ⟨k, hk⟩ := hanswered i hi
      obtain ⟨l, hl⟩ := hanswered j hj
      exact honce.unique i j k l hk hl
    exact ⟨hone, (hiff hone).mp honce⟩

def twoRequests (i : Fin 2) : BootstrapRequest where
  store := some ⟨i + 1, []⟩
  region := some ⟨i + 1, none, []⟩

/-- Both requests of the group are answered after their own commands; a lone one before. -/
theorem bootstrapped_twice :
    (∃ s, (Direct.system twoRequests).Reachable s ∧ s.phase 0 = .ok ∧ s.phase 1 = .ok ∧
      s.memory.stores 1 = some ⟨1, []⟩ ∧ s.memory.stores 2 = some ⟨2, []⟩ ∧
      s.memory.regions 1 = some ⟨1, none, []⟩ ∧ s.memory.regions 2 = some ⟨2, none, []⟩) ∧
    (∃ s, (Group.system twoRequests).Reachable s ∧ s.phase 0 = .ok 1 ∧ s.phase 1 = .ok 2 ∧
      (s.memoryAt twoRequests 2).stores 1 = some ⟨1, []⟩ ∧
      (s.memoryAt twoRequests 2).stores 2 = some ⟨2, []⟩ ∧
      (s.memoryAt twoRequests 2).regions 1 = some ⟨1, none, []⟩ ∧
      (s.memoryAt twoRequests 2).regions 2 = some ⟨2, none, []⟩) ∧
    ∃ s, (Group.system twoRequests).Reachable s ∧ s.phase 0 = .ok 1 ∧
      (s.memoryAt twoRequests 1).bootstrapped = false := by
  refine ⟨?_, ?_, ?_⟩
  · have hrun : (Direct.system twoRequests).runFrom (Direct.system twoRequests).start
        [0, 1, 0, 0, 0, 1, 1, 1] = some _ := rfl
    exact ⟨_, reachable_of_run .start hrun, by decide⟩
  · have hrun : (Group.system twoRequests).runFrom (Group.system twoRequests).start
        [.check 0 0, .check 1 0, .propose 0 false, .propose 1 false, .answer 0 0,
          .answer 1 1] = some _ := rfl
    exact ⟨_, reachable_of_run .start hrun, by decide⟩
  · have hrun : (Group.system twoRequests).runFrom (Group.system twoRequests).start
        [.other, .check 0 0, .propose 0 false, .answer 0 0] = some _ := rfl
    exact ⟨_, reachable_of_run .start hrun, by decide⟩

end Bootstrap

end Pd
