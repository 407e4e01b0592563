/-
Who writes where: `ProposeModifies` of `internal/server/coordinator.go` against the
splits of the region it proposes to.
-/
import Gookv.RegionLog

namespace RegionWrites

open Txntypes Metapb Raftstore SnapshotRegion RegionLog List StepSystem
open StoreRestart (CF Engine Modify Request requestsToModifies written entryWrite)

def modifiesToRequests (modifies : List Modify) : List Request :=
  modifies.map fun
    | .put cf key value => .put cf key value
    | .delete cf key => .delete cf key
    | .deleteRange cf key endKey => .deleteRange cf key endKey

def EpochMatches : Option RegionEpoch → Option RegionEpoch → Prop
  | some reqEpoch, some currentEpoch =>
    reqEpoch.version = currentEpoch.version ∧ reqEpoch.confVer = currentEpoch.confVer
  | _, _ => True

instance (reqEpoch currentEpoch : Option RegionEpoch) :
    Decidable (EpochMatches reqEpoch currentEpoch) := by
  unfold EpochMatches
  split <;> infer_instance

def proposeModifies (region : Region) (modifies : List Modify) (reqEpoch : Option RegionEpoch) :
    Option Command :=
  if EpochMatches reqEpoch region.regionEpoch then
    some (.data region.regionEpoch (modifiesToRequests modifies))
  else none

structure State where
  log : List Command
  pending : List Command
  peers : ℕ → RegionLog.Peer
  engines : ℕ → Engine

inductive Action
  | proposeModifies (peer : ℕ) (modifies : List Modify) (reqEpoch : Option RegionEpoch)
  | proposeAdmin (e : AdminEntry)
  | commit (n : ℕ)
  | handleReady (peer count : ℕ)
  | applyNext (peer : ℕ)
  deriving DecidableEq

def State.setPeer (s : State) (id : ℕ) (p : RegionLog.Peer) : State :=
  { s with peers := Function.update s.peers id p }

def step (s : State) : Action → Option State
  | .proposeModifies id modifies reqEpoch =>
    some { s with
      pending := s.pending ++ (proposeModifies (s.peers id).region modifies reqEpoch).toList }
  | .proposeAdmin e => some { s with pending := s.pending ++ [.admin e] }
  | .commit n =>
    s.pending[n]?.map fun c => { s with log := s.log ++ [c], pending := s.pending.eraseIdx n }
  | .handleReady id count =>
    if (s.peers id).delivered + count ≤ s.log.length then
      some (s.setPeer id ((s.peers id).handleReady s.log count))
    else none
  | .applyNext id =>
    if (s.peers id).applied < (s.peers id).delivered then
      some ({ s with
        engines := Function.update s.engines id
          (applyAt (s.engines id) s.log (s.peers id).applied) }.setPeer id
          { s.peers id with applied := (s.peers id).applied + 1 })
    else none

def start (region : Region) : State := ⟨[], [], fun _ => { region }, fun _ _ _ => none⟩

def system (region : Region) : StepSystem State Action := ⟨start region, step⟩

def Within (region : Region) (requests : List Request) : Prop :=
  ∀ cf key, entryWrite cf key requests ≠ none → region.contains key

def WritesInside (region : Region) (s : State) : Prop :=
  ∀ id, ∀ i < (s.peers id).applied, ∀ regionEpoch requests,
    s.log[i]? = some (.data regionEpoch requests) →
      Within (regionAfter region (s.log.take i)) requests

/-! ### When it is so -/

def Inside (region : Region) : Modify → Prop
  | .put _ key _ => region.contains key
  | .delete _ key => region.contains key
  | .deleteRange _ key endKey =>
    endKey ≤ key ∨ region.contains key ∧ (region.endKey = [] ∨ endKey ≤ region.endKey)

instance (region : Region) (m : Modify) : Decidable (Inside region m) := by
  unfold Inside
  split <;> infer_instance

def InTime (region : Region) (s : State) : Action → Prop
  | .proposeModifies id modifies _ => ∀ m ∈ modifies, Inside (s.peers id).region m
  | .commit n =>
    match s.pending[n]? with
    | some (.data regionEpoch _) =>
      (regionEpoch.getD {}).version = version (regionAfter region s.log)
    | _ => True
  | _ => True

instance (region : Region) (s : State) (a : Action) : Decidable (InTime region s a) := by
  unfold InTime
  split
  · infer_instance
  · split <;> infer_instance
  · infer_instance

theorem Inside.contains {region : Region} {m : Modify} {cf : CF} {key : Key} (h : Inside region m)
    (hwrite : m.writeAt cf key ≠ none) : region.contains key := by
  cases m with
  | put c k v | delete c k =>
    obtain ⟨-, rfl⟩ : c = cf ∧ k = key := by simpa [Modify.writeAt] using hwrite
    exact h
  | deleteRange c k e =>
    obtain ⟨-, hk, he⟩ : c = cf ∧ ¬ key < k ∧ key < e := by
      simpa [Modify.writeAt] using hwrite
    rcases h with hempty | ⟨hstart, hend⟩
    · exact absurd (he.trans_le hempty) hk
    · -- the range starts in the region and ends before the region does
      rw [Region.contains_iff] at hstart ⊢
      refine ⟨hstart.1.trans (not_lt.mp hk), ?_⟩
      rcases hend with hend | hend
      · exact .inl hend
      · exact .inr (he.trans_le hend)

theorem requestsToModifies_modifiesToRequests (modifies : List Modify) :
    requestsToModifies (modifiesToRequests modifies) = modifies := by
  induction modifies with
  | nil => rfl
  | cons m modifies ih =>
    cases m <;> exact congrArg (_ :: ·) ih

variable {region : Region} {log : List Command}

theorem within_modifiesToRequests {modifies : List Modify}
    (h : ∀ m ∈ modifies, Inside region m) : Within region (modifiesToRequests modifies) := by
  intro cf key hwrite
  obtain ⟨v, hv⟩ := Option.ne_none_iff_exists'.mp hwrite
  obtain ⟨m, hm, hmv⟩ := LastWrite.exists_of_eq_some hv
  have hmem : m ∈ modifies := by
    rw [written, requestsToModifies_modifiesToRequests] at hm
    split at hm
    · exact hm
    · cases hm
  exact (h m hmem).contains (by rw [hmv]; exact Option.some_ne_none v)

def Valid (region : Region) (log : List Command) : Command → Prop
  | .data regionEpoch requests =>
    ∃ n ≤ log.length,
      (regionEpoch.getD {}).version = version (regionAfter region (log.take n)) ∧
        Within (regionAfter region (log.take n)) requests
  | _ => True

theorem Valid.append {c : Command}
    (h : Valid region log c) (more : List Command) : Valid region (log ++ more) c := by
  cases c with
  | admin e => trivial
  | other => trivial
  | data regionEpoch requests =>
    obtain ⟨n, hn, hversion, hwithin⟩ := h
    refine ⟨n, ?_, ?_⟩
    · rw [length_append]
      omega
    · rw [take_append_of_le_length hn]
      exact ⟨hversion, hwithin⟩

theorem Valid.within {regionEpoch : Option RegionEpoch} {requests : List Request}
    (h : Valid region log (.data regionEpoch requests))
    (hnow : (regionEpoch.getD {}).version = version (regionAfter region log)) :
    Within (regionAfter region log) requests := by
  obtain ⟨n, hn, hversion, hwithin⟩ := h
  have hfollows := follows_take region log hn
  rw [take_length] at hfollows
  intro cf key hwrite
  exact (hfollows.contains_iff (by rw [← hnow, hversion]) key).mpr (hwithin cf key hwrite)

structure Inv (region : Region) (s : State) : Prop where
  peers : ∀ id, (s.peers id).InStep region s.log
  pending : ∀ c ∈ s.pending, Valid region s.log c
  log : ∀ i regionEpoch requests, s.log[i]? = some (.data regionEpoch requests) →
    Within (regionAfter region (s.log.take i)) requests

namespace Inv

variable {region : Region} {s : State}

theorem start (region : Region) : Inv region (RegionWrites.start region) where
  peers id := ⟨le_rfl, rfl⟩
  pending c hc := by cases hc
  log i regionEpoch requests hi := by cases hi

theorem propose {cs : List Command} (h : Inv region s) (hcs : ∀ c ∈ cs, Valid region s.log c) :
    Inv region { s with pending := s.pending ++ cs } where
  peers := h.peers
  pending c hc := by
    rcases mem_append.mp hc with hc | hc
    · exact h.pending c hc
    · exact hcs c hc
  log := h.log

theorem proposeModifies {modifies : List Modify} (h : Inv region s) (id : ℕ)
    (hmodifies : ∀ m ∈ modifies, Inside (s.peers id).region m) (reqEpoch : Option RegionEpoch) :
    ∀ c ∈ (proposeModifies (s.peers id).region modifies reqEpoch).toList,
      Valid region s.log c := by
  intro c hc
  unfold RegionWrites.proposeModifies at hc
  split at hc
  · obtain rfl := mem_singleton.mp hc
    -- the position that the proposing peer has got to
    have hregion := (h.peers id).region
    refine ⟨(s.peers id).delivered, (h.peers id).delivered, ?_, ?_⟩
    · rw [← hregion]
      rfl
    · rw [← hregion]
      exact within_modifiesToRequests hmodifies
  · cases hc

theorem commit {n : ℕ} {c : Command} (h : Inv region s) (hc : s.pending[n]? = some c)
    (htime : InTime region s (.commit n)) :
    Inv region { s with log := s.log ++ [c], pending := s.pending.eraseIdx n } where
  peers id := (h.peers id).commit c
  pending c' hc' := (h.pending c' (mem_of_mem_eraseIdx hc')).append [c]
  log i regionEpoch requests hi := by
    by_cases hlt : i < s.log.length
    · rw [getElem?_append_left hlt] at hi
      rw [take_append_of_le_length hlt.le]
      exact h.log i regionEpoch requests hi
    · -- the new entry, at the end of the log
      obtain rfl : i = s.log.length := by
        have hlen := (List.getElem?_eq_some_iff.mp hi).1
        rw [length_append, length_singleton] at hlen
        omega
      rw [getElem?_concat_length, Option.some_inj] at hi
      subst hi
      rw [take_left']
      · refine (h.pending _ (mem_of_getElem? hc)).within ?_
        rw [InTime, hc] at htime
        exact htime
      · rfl

theorem setPeer (h : Inv region s) {id : ℕ} {p : RegionLog.Peer} {engines : ℕ → Engine}
    (hp : p.InStep region s.log) : Inv region ({ s with engines }.setPeer id p) where
  peers := (Function.forall_update_iff s.peers fun _ p => p.InStep region s.log).mpr
    ⟨hp, fun id' _ => h.peers id'⟩
  pending := h.pending
  log := h.log

end Inv

theorem step_inv {s s' : State} {a : Action} (h : Inv region s)
    (htime : InTime region s a) (hstep : step s a = some s') : Inv region s' := by
  cases a with
  | proposeModifies id modifies reqEpoch =>
    cases hstep
    exact h.propose (h.proposeModifies id htime reqEpoch)
  | proposeAdmin e =>
    cases hstep
    refine h.propose ?_
    intro c hc
    rw [mem_singleton.mp hc]
    trivial
  | commit n =>
    obtain ⟨c, hc, rfl⟩ := Option.map_eq_some_iff.mp hstep
    exact h.commit hc htime
  | handleReady id count =>
    obtain ⟨hcount, rfl⟩ := of_guard hstep
    exact h.setPeer ((h.peers id).handleReady hcount)
  | applyNext id =>
    obtain ⟨-, rfl⟩ := of_guard hstep
    exact h.setPeer ⟨(h.peers id).delivered, (h.peers id).region⟩

/-- **In every run whose commands get their place in time, a region only writes inside its
own range.** -/
theorem writesInside_of_inTime (region : Region) {s : State}
    (h : (system region).ReachableWhen (InTime region) s) : WritesInside region s := by
  -- the log itself is in order, whatever part of it a peer has applied
  have hinv : Inv region s :=
    h.invariant (Inv.start region) fun _ _ _ hinv htime hstep => step_inv hinv htime hstep
  intro id i _ regionEpoch requests hi
  exact hinv.log i regionEpoch requests hi

def wholeRegion : Region := { id := 1, regionEpoch := some ⟨1, 1⟩, peers := [{ id := 10 }] }

/-- `z` is written, the region is split at `m`, and the peer writes `a`. -/
def inTimeRun : List Action :=
  [.proposeModifies 1 [.put .default [0x7a] [1]] (some ⟨1, 1⟩),
   .commit 0,
   .proposeAdmin splitAtM,
   .commit 0,
   .handleReady 1 2,
   .proposeModifies 1 [.put .default [0x61] [2]] (some ⟨1, 2⟩),
   .commit 0,
   .handleReady 1 1,
   .applyNext 1,
   .applyNext 1,
   .applyNext 1]

theorem writesInside_inTimeRun : ∃ s, (system wholeRegion).ReachableWhen (InTime wholeRegion) s ∧
    s.log.length = 3 ∧ (s.peers 1).applied = 3 ∧ WritesInside wholeRegion s := by
  obtain ⟨s, hrun, hlength, happlied⟩ : ∃ s,
      (system wholeRegion).runWhen (InTime wholeRegion) (start wholeRegion) inTimeRun = some s ∧
      s.log.length = 3 ∧ (s.peers 1).applied = 3 :=
    ⟨_, rfl, rfl, rfl⟩
  have hreach : (system wholeRegion).ReachableWhen (InTime wholeRegion) s :=
    reachableWhen_of_run .start hrun
  exact ⟨s, hreach, hlength, happlied, writesInside_of_inTime wholeRegion hreach⟩

def overtakenRun : List Action :=
  [.proposeModifies 1 [.put .default [0x7a] [1]] (some ⟨1, 1⟩),
   .proposeAdmin splitAtM,
   .commit 1,
   .commit 0,
   .handleReady 1 2,
   .applyNext 1,
   .applyNext 1]

theorem child_key_written : ∃ s, (system wholeRegion).Reachable s ∧
    (s.peers 1).region.endKey = [0x6d] ∧ ¬ (s.peers 1).region.contains [0x7a] ∧
    s.engines 1 .default [0x7a] = some [1] ∧ ¬ WritesInside wholeRegion s := by
  obtain ⟨s, hrun, hend, hout, hvalue, happlied, hentry, hregion⟩ : ∃ s,
      (system wholeRegion).runFrom (start wholeRegion) overtakenRun = some s ∧
      (s.peers 1).region.endKey = [0x6d] ∧ ¬ (s.peers 1).region.contains [0x7a] ∧
      s.engines 1 .default [0x7a] = some [1] ∧ (s.peers 1).applied = 2 ∧
      s.log[1]? = some (.data (some ⟨1, 1⟩) [.put .default [0x7a] [1]]) ∧
      ¬ (regionAfter wholeRegion (s.log.take 1)).contains [0x7a] :=
    ⟨_, rfl, rfl, by decide, rfl, rfl, rfl, by decide⟩
  refine ⟨s, reachable_of_run .start hrun, hend, hout, hvalue, ?_⟩
  intro hinside
  have hwithin := hinside 1 1 (by rw [happlied]; decide) _ _ hentry
  exact hregion (hwithin .default [0x7a] (by decide))

end RegionWrites
