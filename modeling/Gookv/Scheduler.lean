/-
The scheduler of PD: `internal/pd/scheduler.go`.
-/
import Gookv.MoveTracker
import Gookv.PdMetadata

namespace Scheduling

open Metapb Metadata List Option

structure Scheduler where
  metadata : MetadataStore
  nextID : ℕ
  maxPeerCount : ℕ
  regionBalanceThreshold : Float
  regionBalanceRateLimit : ℕ
  moveTracker : Option MoveTracker

def newScheduler (metadata : MetadataStore) (nextID : ℕ) (maxPeerCount : ℤ) (threshold : Float)
    (rateLimit : ℤ) (moveTracker : Option MoveTracker) : Scheduler where
  metadata := metadata
  nextID := nextID
  maxPeerCount := if maxPeerCount ≤ 0 then 3 else maxPeerCount.toNat
  regionBalanceThreshold := if threshold ≤ 0 then 0.05 else threshold
  regionBalanceRateLimit := if rateLimit ≤ 0 then 4 else rateLimit.toNat
  moveTracker := moveTracker

namespace Scheduler

def healthy (s : Scheduler) (peer : Peer) : Bool :=
  let state := s.metadata.getStoreState peer.storeId
  state == .up || state == .disconnected

def hosts (region : Region) (storeID : ℕ) : Bool := hasPeerOnStore region storeID

def alloc (s : Scheduler) : ℕ × Scheduler := (s.nextID, { s with nextID := s.nextID + 1 })

def pickStoreForRegion (s : Scheduler) (stores : List Store) (region : Region) : ℕ :=
  ((stores.find? fun store =>
    !hosts region store.id && s.metadata.isStoreSchedulable store.id).map Store.id).getD 0

def scheduleReplicaRepair (s : Scheduler) (stores : List Store) (regionID : ℕ)
    (region : Region) : Scheduler × Option ScheduleCommand :=
  if s.maxPeerCount ≤ region.peers.countP s.healthy then (s, none)
  else
    let targetStore := s.pickStoreForRegion stores region
    if targetStore = 0 then (s, none)
    else
      let (newPeerID, s) := s.alloc
      (s, some (addNode regionID { id := newPeerID, storeId := targetStore }))

/-- A round of `scheduleExcessReplicaShedding`: the peer on the fullest store so far. -/
def fuller (s : Scheduler) (leader : Option Peer) (acc : Option Peer × ℤ) (peer : Peer) :
    Option Peer × ℤ :=
  if leader.any fun l => peer.id == l.id then acc
  else
    let count : ℤ := s.metadata.getRegionCountPerStore peer.storeId
    if acc.2 < count then (some peer, count) else acc

def excessPeer (s : Scheduler) (region : Region) (leader : Option Peer) : Option Peer :=
  (region.peers.foldl (s.fuller leader) (none, -1)).1

def scheduleExcessReplicaShedding (s : Scheduler) (regionID : ℕ) (region : Region)
    (leader : Option Peer) : Option ScheduleCommand :=
  -- all peers count here, also those on stores that are down
  if region.peers.length ≤ s.maxPeerCount then none
  else (s.excessPeer region leader).map (removeNode regionID)

def overloaded (s : Scheduler) (mean : Float) (peer : Peer) : Bool :=
  let count := s.metadata.getRegionCountPerStore peer.storeId
  let ceilMean := mean.toUInt64.toNat + 1
  decide (ceilMean < count) &&
    decide (mean * (1 + s.regionBalanceThreshold) < Float.ofNat count)

def underloaded (s : Scheduler) (mean : Float) (region : Region) (store : Store) : Bool :=
  let count := s.metadata.getRegionCountPerStore store.id
  let floorMean := mean.toUInt64.toNat
  !hosts region store.id && s.metadata.isStoreSchedulable store.id &&
    decide (count < floorMean) &&
    decide (Float.ofNat count < mean * (1 - s.regionBalanceThreshold))

def atRateLimit (s : Scheduler) (regionID : ℕ) : Bool :=
  s.moveTracker.any fun t =>
    decide (s.regionBalanceRateLimit ≤ t.activeMoveCount) || (t.hasPendingMove regionID).1

def scheduleRegionBalance (s : Scheduler) (stores : List Store) (regionID now : ℕ)
    (region : Region) (leader : Option Peer) : Scheduler × Option ScheduleCommand :=
  if leader = none ∨ s.atRateLimit regionID = true then (s, none)
  else
    let schedulable := stores.filter fun store => s.metadata.isStoreSchedulable store.id
    if schedulable = [] then (s, none)
    else
      let totalRegions :=
        (schedulable.map fun store => s.metadata.getRegionCountPerStore store.id).sum
      let mean := Float.ofNat totalRegions / Float.ofNat schedulable.length
      match region.peers.find? (s.overloaded mean) with
      | none => (s, none)
      | some sourcePeer =>
        let targetStoreID :=
          ((stores.find? (s.underloaded mean region)).map Store.id).getD 0
        if targetStoreID = 0 then (s, none)
        else
          let (newPeerID, s) := s.alloc
          let moveTracker := s.moveTracker.map fun t =>
            t.startMove regionID sourcePeer targetStoreID now
          ({ s with moveTracker := moveTracker },
            some (addNode regionID { id := newPeerID, storeId := targetStoreID }))

def minLeaderStore (s : Scheduler) (region : Region) : ℕ × ℕ :=
  region.peers.foldl (fun (minStore, minCount) peer =>
    let count := s.metadata.getLeaderCountPerStore peer.storeId
    if s.metadata.isStoreSchedulable peer.storeId && decide (count < minCount) then
      (peer.storeId, count)
    else (minStore, minCount)) (0, 2 ^ 63 - 1)

def scheduleLeaderBalance (s : Scheduler) (regionID : ℕ) (region : Region)
    (leader : Option Peer) : Option ScheduleCommand :=
  leader.bind fun leader =>
    let leaderCount := s.metadata.getLeaderCountPerStore leader.storeId
    let (minStore, minCount) := s.minLeaderStore region
    if minStore ≠ 0 ∧ minStore ≠ leader.storeId ∧ minCount + 1 < leaderCount then
      some (transferLeader regionID { id := 0, storeId := minStore })
    else none

def advanceMoves (s : Scheduler) (regionID : ℕ) (region : Region) (leader : Option Peer) :
    Scheduler × Option (Option ScheduleCommand) :=
  match s.moveTracker with
  | none => (s, none)
  | some t =>
    match t.advance regionID (some region) leader with
    | (t, some cmd) => ({ s with moveTracker := some t }, some (some cmd))
    | (t, none) =>
      match t.hasPendingMove regionID with
      | (true, t) => ({ s with moveTracker := some t }, some none)
      | (false, t) => ({ s with moveTracker := some t }, none)

/-- `Schedule`, with the orders in which the stores are seen. -/
def schedule (s : Scheduler) (stores stores' : List Store) (now regionID : ℕ) (region : Region)
    (leader : Option Peer) : Scheduler × Option ScheduleCommand :=
  match s.advanceMoves regionID region leader with
  | (s, some answer) => (s, answer)
  | (s, none) =>
    match s.scheduleExcessReplicaShedding regionID region leader with
    | some cmd => (s, some cmd)
    | none =>
      match s.scheduleReplicaRepair stores regionID region with
      | (s, some cmd) => (s, some cmd)
      | (s, none) =>
        match s.scheduleRegionBalance stores' regionID now region leader with
        | (s, some cmd) => (s, some cmd)
        | (s, none) => (s, s.scheduleLeaderBalance regionID region leader)

/-! ### The parts -/

variable {s s' : Scheduler} {stores stores' : List Store} {now regionID : ℕ} {region : Region}
  {leader : Option Peer} {cmd : ScheduleCommand} {peer : Peer}

/-- The peers of a region besides its leader. -/
def others (region : Region) (leader : Option Peer) : List Peer :=
  region.peers.filter fun p => !leader.any fun l => p.id == l.id

def regionsOn (s : Scheduler) (p : Peer) : ℕ := s.metadata.getRegionCountPerStore p.storeId

/-- The first peer besides the leader on a store with the most regions. -/
def fullest (s : Scheduler) (region : Region) (leader : Option Peer) : Option Peer :=
  (others region leader).find? fun p =>
    (others region leader).all fun q => s.regionsOn q ≤ s.regionsOn p

/-- A round of the loop for a peer that is not the leader. -/
def keepFuller (s : Scheduler) (acc : Option Peer × ℤ) (peer : Peer) : Option Peer × ℤ :=
  if acc.2 < (s.regionsOn peer : ℤ) then (some peer, (s.regionsOn peer : ℤ)) else acc

theorem foldl_keepFuller (s : Scheduler) (l : List Peer) :
    l = [] ∨ ∃ p, l.foldl s.keepFuller (none, -1) = (some p, (s.regionsOn p : ℤ)) ∧
      l.find? (fun p => l.all fun q => s.regionsOn q ≤ s.regionsOn p) = some p ∧
      ∀ q ∈ l, s.regionsOn q ≤ s.regionsOn p := by
  induction l using reverseRecOn with
  | nil => exact .inl rfl
  | append_singleton l x ih =>
    refine .inr ?_
    rw [foldl_append, foldl_cons, foldl_nil]
    rcases ih with rfl | ⟨p, hfold, hfind, hle⟩
    · refine ⟨x, if_pos ?_, by simp, by simp⟩
      show (-1 : ℤ) < _
      omega
    · rw [hfold, keepFuller]
      by_cases hlt : s.regionsOn p < s.regionsOn x
      · -- no earlier peer is as full as the new one
        have hnone : l.find? (fun p => (l ++ [x]).all fun q => s.regionsOn q ≤ s.regionsOn p) =
            none := by
          refine find?_eq_none.mpr fun y hy hall => ?_
          have hxy := of_decide_eq_true (all_eq_true.mp hall x (by simp))
          have hyp := hle y hy
          omega
        have hmax : ∀ q ∈ l ++ [x], s.regionsOn q ≤ s.regionsOn x := by
          intro q hq
          rcases mem_append.mp hq with hq | hq
          · exact (hle q hq).trans hlt.le
          · rw [mem_singleton.mp hq]
        refine ⟨x, if_pos (by simpa using hlt), ?_, hmax⟩
        rw [find?_append, hnone, none_or]
        exact find?_cons_of_pos (all_eq_true.mpr fun q hq => decide_eq_true (hmax q hq))
      · have hmax : ∀ q ∈ l ++ [x], s.regionsOn q ≤ s.regionsOn p := by
          intro q hq
          rcases mem_append.mp hq with hq | hq
          · exact hle q hq
          · rw [mem_singleton.mp hq]
            exact not_lt.mp hlt
        refine ⟨p, if_neg (by simpa using hlt), ?_, hmax⟩
        obtain ⟨-, before, after, rfl, hbefore⟩ := find?_eq_some_iff_append.mp hfind
        refine find?_eq_some_iff_append.mpr ⟨all_eq_true.mpr fun q hq => decide_eq_true (hmax q hq),
          before, after ++ [x], by simp, ?_⟩
        intro y hy
        have hy' := hbefore y hy
        rw [Bool.not_eq_true', ← Bool.not_eq_true] at hy' ⊢
        exact fun hall => hy' (all_eq_true.mpr fun q hq =>
          all_eq_true.mp hall q (mem_append_left _ hq))

theorem excessPeer_eq_fullest : s.excessPeer region leader = s.fullest region leader := by
  have hskip : region.peers.foldl (s.fuller leader) (none, -1) =
      (others region leader).foldl s.keepFuller (none, -1) := by
    rw [others, foldl_filter]
    refine foldl_ext _ _ _ fun acc p _ => ?_
    unfold fuller
    cases leader.any fun l => p.id == l.id <;> rfl
  rw [excessPeer, hskip, fullest]
  rcases s.foldl_keepFuller (others region leader) with hnil | ⟨p, hfold, hfind, -⟩
  · rw [hnil]
    rfl
  · rw [hfold, hfind]

theorem fullest_mem (h : s.fullest region leader = some peer) : peer ∈ region.peers :=
  mem_of_mem_filter (mem_of_find?_eq_some h)

def Suitable (s : Scheduler) (stores : List Store) (region : Region) (storeID : ℕ) : Prop :=
  (∃ store ∈ stores, store.id = storeID) ∧ s.metadata.getStoreState storeID = .up ∧
    ∀ p ∈ region.peers, p.storeId ≠ storeID

theorem Suitable.mono {storeID : ℕ} (h : s.Suitable stores region storeID)
    (hstores : stores ⊆ stores') : s.Suitable stores' region storeID := by
  obtain ⟨⟨store, hmem, hid⟩, h⟩ := h
  exact ⟨⟨store, hstores hmem, hid⟩, h⟩

theorem suitable_of_test {store : Store} (hmem : store ∈ stores)
    (hhosts : hosts region store.id = false) (hup : s.metadata.isStoreSchedulable store.id = true) :
    s.Suitable stores region store.id := by
  refine ⟨⟨store, hmem, rfl⟩, by simpa [MetadataStore.isStoreSchedulable] using hup, ?_⟩
  intro p hp heq
  rw [hosts, hasPeerOnStore, List.any_eq_false] at hhosts
  exact hhosts p hp (by simp [heq])

theorem suitable_pickStoreForRegion (h : s.pickStoreForRegion stores region ≠ 0) :
    s.Suitable stores region (s.pickStoreForRegion stores region) := by
  rw [pickStoreForRegion] at h ⊢
  cases hfind : stores.find? fun store =>
      !hosts region store.id && s.metadata.isStoreSchedulable store.id with
  | none =>
    rw [hfind] at h
    exact absurd rfl h
  | some store =>
    have htest := find?_some hfind
    rw [Bool.and_eq_true, Bool.not_eq_true'] at htest
    exact suitable_of_test (mem_of_find?_eq_some hfind) htest.1 htest.2

theorem scheduleReplicaRepair_adds
    (h : (s.scheduleReplicaRepair stores regionID region).2 = some cmd) :
    ∃ peer, cmd = addNode regionID peer ∧ s.Suitable stores region peer.storeId := by
  rw [scheduleReplicaRepair] at h
  split at h
  · cases h
  · dsimp only at h
    split at h
    · cases h
    · rename_i htarget
      cases h
      exact ⟨_, rfl, suitable_pickStoreForRegion htarget⟩

theorem scheduleReplicaRepair_none (h : (s.scheduleReplicaRepair stores regionID region).2 = none) :
    (s.scheduleReplicaRepair stores regionID region).1 = s := by
  rw [scheduleReplicaRepair] at h ⊢
  split
  · rfl
  · rename_i hcount
    rw [if_neg hcount] at h
    dsimp only at h ⊢
    split
    · rfl
    · rename_i htarget
      rw [if_neg htarget] at h
      cases h

theorem scheduleLeaderBalance_transfers
    (h : s.scheduleLeaderBalance regionID region leader = some cmd) :
    ∃ peer, cmd = transferLeader regionID peer := by
  rw [scheduleLeaderBalance] at h
  obtain ⟨l, -, h⟩ := bind_eq_some_iff.mp h
  dsimp only at h
  split at h
  · cases h
    exact ⟨_, rfl⟩
  · cases h

theorem scheduleRegionBalance_adds
    (h : (s.scheduleRegionBalance stores regionID now region leader).2 = some cmd) :
    ∃ peer, cmd = addNode regionID peer ∧ s.Suitable stores region peer.storeId := by
  rw [scheduleRegionBalance] at h
  split at h
  · cases h
  · dsimp only at h
    split at h
    · cases h
    · split at h
      · cases h
      · split at h
        · cases h
        · rename_i htarget
          cases h
          refine ⟨_, rfl, ?_⟩
          dsimp only
          -- the target is the store that was found
          generalize Float.ofNat _ / Float.ofNat _ = mean at htarget
          cases hfind : stores.find? (s.underloaded mean region) with
          | none =>
            rw [hfind] at htarget
            exact absurd rfl htarget
          | some store =>
            have htest := find?_some hfind
            rw [underloaded] at htest
            simp only [Bool.and_eq_true, Bool.not_eq_true'] at htest
            exact suitable_of_test (mem_of_find?_eq_some hfind) htest.1.1.1 htest.1.1.2

/-! ### The whole -/

def InCooldown (s : Scheduler) (regionID : ℕ) : Prop :=
  ∃ t cd, s.moveTracker = some t ∧ t.cooldowns.get regionID = some cd ∧
    t.heartbeatCount + 1 < cd.cooldownExpiry

theorem advanceMoves_of_no_move (region : Region) (leader : Option Peer)
    (hmove : ∀ t, s.moveTracker = some t → t.moves.get regionID = none) :
    (∃ moveTracker, (s.advanceMoves regionID region leader).1 =
      { s with moveTracker := moveTracker }) ∧
    ((s.advanceMoves regionID region leader).2 = some none ∧ s.InCooldown regionID ∨
      (s.advanceMoves regionID region leader).2 = none ∧ ¬ s.InCooldown regionID) := by
  cases ht : s.moveTracker with
  | none =>
    have hadvanced : s.advanceMoves regionID region leader = (s, none) := by
      rw [advanceMoves, ht]
    rw [hadvanced]
    refine ⟨⟨s.moveTracker, rfl⟩, .inr ⟨rfl, ?_⟩⟩
    rintro ⟨t, cd, ht', -⟩
    rw [ht] at ht'
    cases ht'
  | some t =>
    have hnone := hmove t ht
    have hcooldown : s.InCooldown regionID ↔ ∃ cd, t.cooldowns.get regionID = some cd ∧
        t.heartbeatCount + 1 < cd.cooldownExpiry := by
      constructor
      · rintro ⟨t', cd, ht', h⟩
        obtain rfl := some.inj (ht.symm.trans ht')
        exact ⟨cd, h⟩
      · rintro ⟨cd, h⟩
        exact ⟨t, cd, ht, h⟩
    -- the tracker only counts the heartbeat
    have hadvanced : s.advanceMoves regionID region leader =
        match MoveTracker.hasPendingMove
          { t with heartbeatCount := t.heartbeatCount + 1 } regionID with
        | (true, t) => ({ s with moveTracker := some t }, some none)
        | (false, t) => ({ s with moveTracker := some t }, none) := by
      rw [advanceMoves, ht]
      dsimp only [MoveTracker.advance]
      rw [hnone]
    rw [hcooldown, hadvanced, MoveTracker.hasPendingMove, hnone,
      if_neg (by rw [isSome_none]; exact Bool.false_ne_true)]
    cases hcd : t.cooldowns.get regionID with
    | none => exact ⟨⟨_, rfl⟩, .inr ⟨rfl, by simp⟩⟩
    | some cd =>
      dsimp only
      by_cases hexpiry : t.heartbeatCount + 1 < cd.cooldownExpiry
      · rw [if_pos hexpiry]
        exact ⟨⟨_, rfl⟩, .inl ⟨rfl, cd, rfl, hexpiry⟩⟩
      · rw [if_neg hexpiry]
        exact ⟨⟨_, rfl⟩, .inr ⟨rfl, by simpa using hexpiry⟩⟩

theorem schedule_cases (hmove : ∀ t, s.moveTracker = some t → t.moves.get regionID = none)
    (h : (s.schedule stores stores' now regionID region leader).2 = some cmd) :
    ¬ s.InCooldown regionID ∧
      ((∃ peer, cmd = removeNode regionID peer ∧ s.maxPeerCount < region.peers.length ∧
          s.fullest region leader = some peer) ∨
        (∃ peer, cmd = addNode regionID peer ∧
          (s.Suitable stores region peer.storeId ∨ s.Suitable stores' region peer.storeId)) ∨
        ∃ peer, cmd = transferLeader regionID peer) := by
  obtain ⟨⟨moveTracker, hs⟩, hanswer⟩ := advanceMoves_of_no_move region leader hmove
  rw [schedule] at h
  generalize s.advanceMoves regionID region leader = advanced at h hs hanswer
  obtain ⟨s₁, answer⟩ := advanced
  dsimp only at hs hanswer
  subst hs
  rcases hanswer with ⟨rfl, -⟩ | ⟨rfl, hcooldown⟩
  · cases h
  · refine ⟨hcooldown, ?_⟩
    dsimp only at h
    split at h
    · rename_i cmd' hshed
      cases h
      rw [scheduleExcessReplicaShedding] at hshed
      split at hshed
      · cases hshed
      · rename_i hlen
        obtain ⟨peer, hpeer, rfl⟩ := map_eq_some_iff.mp hshed
        exact .inl ⟨peer, rfl, not_le.mp hlen, excessPeer_eq_fullest.symm.trans hpeer⟩
    · refine .inr ?_
      split at h
      · rename_i s₂ cmd' hrepair
        cases h
        obtain ⟨peer, hcmd, hsuitable⟩ := scheduleReplicaRepair_adds (congrArg Prod.snd hrepair)
        exact .inl ⟨peer, hcmd, .inl hsuitable⟩
      · rename_i s₂ hrepair
        have hs₂ := scheduleReplicaRepair_none (congrArg Prod.snd hrepair)
        rw [hrepair] at hs₂
        dsimp only at hs₂
        subst hs₂
        split at h
        · rename_i s₃ cmd' hbalance
          cases h
          obtain ⟨peer, hcmd, hsuitable⟩ := scheduleRegionBalance_adds (congrArg Prod.snd hbalance)
          exact .inl ⟨peer, hcmd, .inr hsuitable⟩
        · exact .inr (scheduleLeaderBalance_transfers h)

theorem schedule_sheds (hmove : ∀ t, s.moveTracker = some t → t.moves.get regionID = none)
    (hcooldown : ¬ s.InCooldown regionID) (hlen : s.maxPeerCount < region.peers.length)
    (hpeer : s.fullest region leader = some peer) :
    (s.schedule stores stores' now regionID region leader).2 =
      some (removeNode regionID peer) := by
  obtain ⟨⟨moveTracker, hs⟩, hanswer⟩ := advanceMoves_of_no_move region leader hmove
  rw [schedule]
  generalize s.advanceMoves regionID region leader = advanced at hs hanswer
  obtain ⟨s₁, answer⟩ := advanced
  dsimp only at hs hanswer
  subst hs
  rcases hanswer with ⟨-, hcooldown'⟩ | ⟨rfl, -⟩
  · exact absurd hcooldown' hcooldown
  · have hshed : scheduleExcessReplicaShedding { s with moveTracker := moveTracker } regionID
        region leader = some (removeNode regionID peer) := by
      rw [scheduleExcessReplicaShedding, if_neg (not_le.mpr hlen)]
      exact congrArg (Option.map (removeNode regionID)) (excessPeer_eq_fullest.trans hpeer)
    dsimp only
    rw [hshed]

theorem enough_healthy_iff (hpeer : peer ∈ region.peers) (n : ℕ) :
    min (region.peers.countP s.healthy) n ≤ (region.peers.erase peer).countP s.healthy ↔
      (s.healthy peer = true → n < region.peers.countP s.healthy) := by
  rw [countP_erase]
  by_cases hhealthy : s.healthy peer = true
  · have hpos : 0 < region.peers.countP s.healthy :=
      countP_pos_iff.mpr ⟨peer, hpeer, hhealthy⟩
    simp only [hpeer, hhealthy, and_self, if_true, forall_true_left]
    omega
  · simp [hhealthy]

/-- The commands that a region without a move is answered with.  A removal leaves as many
healthy peers as there should be iff there are more of them than that, or the first peer
besides the leader whose store has the most regions is not healthy.  A peer is only added on a
registered store that is up and has none of the region. -/
theorem schedule_redundancy_iff (s : Scheduler) (stores stores' : List Store)
    (hstores : stores ⊆ s.metadata.stores.toList.map Prod.snd)
    (hstores' : stores' ⊆ s.metadata.stores.toList.map Prod.snd)
    (now regionID : ℕ) (region : Region) (leader : Option Peer)
    (hmove : ∀ t, s.moveTracker = some t → t.moves.get regionID = none) :
    ((∀ cmd p, (s.schedule stores stores' now regionID region leader).2 = some cmd →
        cmd.Removes p →
          min (region.peers.countP s.healthy) s.maxPeerCount ≤
            (region.peers.erase p).countP s.healthy) ↔
      (s.InCooldown regionID ∨ region.peers.length ≤ s.maxPeerCount ∨
        ∀ p, s.fullest region leader = some p → s.healthy p = true →
          s.maxPeerCount < region.peers.countP s.healthy)) ∧
    ∀ cmd p, (s.schedule stores stores' now regionID region leader).2 = some cmd →
      cmd.Adds p →
        s.Suitable (s.metadata.stores.toList.map Prod.snd) region p.storeId := by
  refine ⟨⟨fun hsafe => ?_, fun hcond cmd p hcmd hremoves => ?_⟩, fun cmd p hcmd hadds => ?_⟩
  · by_contra hcond
    push Not at hcond
    obtain ⟨hcooldown, hlen, p, hp, hhealthy, hle⟩ := hcond
    have hcmd : (s.schedule stores stores' now regionID region leader).2 = _ :=
      schedule_sheds hmove hcooldown hlen hp
    have henough := (enough_healthy_iff (fullest_mem hp) _).mp (hsafe _ p hcmd rfl) hhealthy
    omega
  · obtain ⟨hcooldown, ⟨peer, rfl, hlen, hp⟩ | ⟨peer, rfl, -⟩ | ⟨peer, rfl⟩⟩ :=
      schedule_cases hmove hcmd
    · cases hremoves
      rcases hcond with hcond | hcond | hcond
      · exact absurd hcond hcooldown
      · omega
      · exact (enough_healthy_iff (fullest_mem hp) _).mpr (hcond p hp)
    · cases hremoves
    · cases hremoves
  · obtain ⟨-, ⟨peer, rfl, -⟩ | ⟨peer, rfl, hsuitable⟩ | ⟨peer, rfl⟩⟩ := schedule_cases hmove hcmd
    · cases hadds
    · cases hadds
      rcases hsuitable with hsuitable | hsuitable
      · exact hsuitable.mono hstores
      · exact hsuitable.mono hstores'
    · cases hadds

def fourPeers : Region where
  id := 7
  peers := [⟨11, 1, .voter⟩, ⟨12, 2, .voter⟩, ⟨13, 3, .voter⟩, ⟨14, 4, .voter⟩]

def withFourth (state : StoreState) : Scheduler :=
  newScheduler
    { stores := (((Table.empty.put 1 ⟨1⟩).put 2 ⟨2⟩).put 3 ⟨3⟩).put 4 ⟨4⟩
      storeStates := Table.empty.put 4 state
      regions := Table.empty.put 7 fourPeers
      leaders := Table.empty.put 7 ⟨11, 1, .voter⟩ }
    20 0 0 0 (some ⟨.empty, .empty, 0⟩)

theorem schedule_redundancy_fourPeers : (withFourth .up).maxPeerCount < fourPeers.peers.length ∧
      ∀ cmd p, ((withFourth .up).schedule [⟨1⟩, ⟨2⟩] [⟨4⟩] 0 7 fourPeers
          (some ⟨11, 1, .voter⟩)).2 = some cmd → cmd.Removes p →
        min (fourPeers.peers.countP (withFourth .up).healthy) (withFourth .up).maxPeerCount ≤
          (fourPeers.peers.erase p).countP (withFourth .up).healthy := by
  refine ⟨by decide, ?_⟩
  have hiff := (schedule_redundancy_iff (withFourth .up) [⟨1⟩, ⟨2⟩] [⟨4⟩] (by decide) (by decide)
    0 7 fourPeers (some ⟨11, 1, .voter⟩) (by rintro t ⟨⟩; rfl)).1
  exact hiff.mpr (.inr (.inr fun p _ _ => by decide))

theorem schedule_removes_healthy :
    ∃ cmd p, ((withFourth .down).schedule [⟨1⟩, ⟨2⟩, ⟨3⟩, ⟨4⟩] [⟨1⟩, ⟨2⟩, ⟨3⟩, ⟨4⟩] 0 7
        fourPeers (some ⟨11, 1, .voter⟩)).2 = some cmd ∧ cmd.Removes p ∧
      (fourPeers.peers.erase p).countP (withFourth .down).healthy <
        min (fourPeers.peers.countP (withFourth .down).healthy)
          (withFourth .down).maxPeerCount := by
  refine ⟨removeNode 7 ⟨12, 2, .voter⟩, ⟨12, 2, .voter⟩, ?_, rfl, by decide⟩
  refine schedule_sheds (by rintro t ⟨⟩; rfl) ?_ (by decide) (by decide)
  rintro ⟨t, cd, ⟨⟩, hcd, -⟩
  cases hcd

end Scheduler

end Scheduling
