/-
What a snapshot of PD's state carries: `internal/pd/snapshot.go`.

The cooldowns and the heartbeat counter of the move tracker are not in it.  Two servers are
`Similar` when they differ only in where their trackers count from; `Similar.answers` says that
no sequence of calls tells them apart, `snapshot_carries` that nothing less will do.
-/
import Gookv.Scheduler

namespace PdSnapshotState

open Scheduling Metadata Metapb List

/-- The state of `meta`, `tso`, `idAlloc` and `gcMgr`. -/
structure Carried where
  bootstrapped : Bool
  metadata : MetadataStore
  storeStats : Table ℕ (List UInt8)
  storeLastHeartbeat : Table ℕ ℤ
  physical : ℤ
  logical : ℤ
  nextID : ℕ
  gcSafePoint : ℕ

structure State where
  carried : Carried
  moveTracker : MoveTracker

structure PDSnapshot extends Carried where
  pendingMoves : Table ℕ PendingMove

def generateSnapshot (s : State) : PDSnapshot :=
  { s.carried with pendingMoves := s.moveTracker.moves }

def applySnapshot (s : State) (snap : PDSnapshot) : State where
  carried := snap.toCarried
  moveTracker := { s.moveTracker with moves := snap.pendingMoves }

/-! ### Commands, queries and schedules -/

structure Config where
  maxPeerCount : ℕ
  regionBalanceThreshold : Float
  regionBalanceRateLimit : ℕ

/-- A call with its clock readings and orders of iteration; `other` is any command or query that
does not use the move tracker, with its encoded answer. -/
inductive Call
  | other (run : Carried → Carried × List UInt8)
  | startMove (regionID : ℕ) (sourcePeer : Peer) (targetStoreID now : ℕ)
  | advanceMove (regionID : ℕ) (region : Option Region) (leader : Option Peer)
  | cleanupStale (timeout now : ℕ)
  | schedule (stores stores' : List Store) (now regionID : ℕ) (region : Region)
      (leader : Option Peer)
  | hasPendingMove (regionID : ℕ)
  | activeMoveCount

inductive Answer
  | ok
  | encoded (data : List UInt8)
  | command (cmd : Option ScheduleCommand)
  | pending (yes : Bool)
  | count (n : ℕ)
  deriving DecidableEq

/-- `CleanupStale`. -/
def cleanupStale (t : MoveTracker) (timeout now : ℕ) : MoveTracker :=
  let stale := t.moves.toList.filter fun p => timeout < now - p.2.startedAt
  { t with moves := stale.foldl (fun moves p => moves.delete p.1) t.moves }

def State.scheduler (cfg : Config) (s : State) : Scheduler :=
  { cfg with
    metadata := s.carried.metadata
    nextID := s.carried.nextID
    moveTracker := some s.moveTracker }

def step (cfg : Config) (s : State) : Call → State × Answer
  | .other run => ({ s with carried := (run s.carried).1 }, .encoded (run s.carried).2)
  | .startMove regionID sourcePeer targetStoreID now =>
    ({ s with moveTracker := s.moveTracker.startMove regionID sourcePeer targetStoreID now }, .ok)
  | .advanceMove regionID region leader =>
    ({ s with moveTracker := (s.moveTracker.advance regionID region leader).1 }, .ok)
  | .cleanupStale timeout now =>
    ({ s with moveTracker := cleanupStale s.moveTracker timeout now }, .ok)
  | .schedule stores stores' now regionID region leader =>
    let (scheduler, cmd) := (s.scheduler cfg).schedule stores stores' now regionID region leader
    ({ carried := { s.carried with nextID := scheduler.nextID }
       moveTracker := scheduler.moveTracker.getD s.moveTracker }, .command cmd)
  | .hasPendingMove regionID =>
    let (yes, moveTracker) := s.moveTracker.hasPendingMove regionID
    ({ s with moveTracker }, .pending yes)
  | .activeMoveCount => (s, .count s.moveTracker.activeMoveCount)

def answers (cfg : Config) : State → List Call → List Answer
  | _, [] => []
  | s, call :: calls => (step cfg s call).2 :: answers cfg (step cfg s call).1 calls

def after (cfg : Config) (s : State) (calls : List Call) : State :=
  calls.foldl (fun s call => (step cfg s call).1) s

/-! ### What the answers depend on -/

/-- The heartbeats that the cooldown of a region still lasts. -/
def remaining (t : MoveTracker) (regionID : ℕ) : ℕ :=
  ((t.cooldowns.get regionID).map MoveCooldown.cooldownExpiry).getD 0 - t.heartbeatCount

/-- Trackers with the same moves and the same remaining cooldowns. -/
structure Alike (t t' : MoveTracker) : Prop where
  moves : t.moves = t'.moves
  cooling : ∀ id, remaining t id = remaining t' id

section
variable {t t' : MoveTracker} {regionID : ℕ}

theorem hasPendingMove_fst (t : MoveTracker) (regionID : ℕ) : (t.hasPendingMove regionID).1 =
    ((t.moves.get regionID).isSome || decide (0 < remaining t regionID)) := by
  rw [MoveTracker.hasPendingMove, remaining]
  cases (t.moves.get regionID).isSome with
  | true => rfl
  | false =>
    cases t.cooldowns.get regionID with
    | none => simp
    | some cd =>
      dsimp only [Option.map_some, Option.getD_some]
      by_cases h : t.heartbeatCount < cd.cooldownExpiry <;> simp [h]

theorem hasPendingMove_snd (t : MoveTracker) (regionID : ℕ) :
    Alike t (t.hasPendingMove regionID).2 := by
  rw [MoveTracker.hasPendingMove]
  split
  · exact ⟨rfl, fun _ => rfl⟩
  · split
    · exact ⟨rfl, fun _ => rfl⟩
    · rename_i cd hcd
      split
      · exact ⟨rfl, fun _ => rfl⟩
      · -- the cooldown that is deleted was over
        rename_i hover
        refine ⟨rfl, fun id => ?_⟩
        rw [remaining, remaining, Table.get_delete]
        split
        · rename_i hid
          rw [hid, hcd]
          exact (Nat.sub_eq_zero_of_le (not_lt.mp hover)).trans (Nat.zero_sub _).symm
        · rfl

theorem Alike.trans {t'' : MoveTracker} (h : Alike t t') (h' : Alike t' t'') : Alike t t'' :=
  ⟨h.moves.trans h'.moves, fun id => (h.cooling id).trans (h'.cooling id)⟩

theorem Alike.symm (h : Alike t t') : Alike t' t :=
  ⟨h.moves.symm, fun id => (h.cooling id).symm⟩

theorem Alike.hasPendingMove (h : Alike t t') (regionID : ℕ) :
    (t.hasPendingMove regionID).1 = (t'.hasPendingMove regionID).1 ∧
      Alike (t.hasPendingMove regionID).2 (t'.hasPendingMove regionID).2 := by
  rw [hasPendingMove_fst, hasPendingMove_fst, h.moves, h.cooling]
  exact ⟨rfl, ((hasPendingMove_snd t regionID).symm.trans h).trans (hasPendingMove_snd t' regionID)⟩

theorem mem_cooling : regionID ∈ (t.cooldowns.toList.filter fun p =>
    t.heartbeatCount < p.2.cooldownExpiry).map Prod.fst ↔ 0 < remaining t regionID := by
  rw [remaining]
  constructor
  · intro h
    obtain ⟨⟨id, cd⟩, hp, rfl⟩ := List.mem_map.mp h
    obtain ⟨hmem, hlt⟩ := List.mem_filter.mp hp
    rw [Table.mem_toList.mp hmem]
    simpa using hlt
  · intro h
    cases hcd : t.cooldowns.get regionID with
    | none => simp [hcd] at h
    | some cd =>
      rw [hcd] at h
      exact List.mem_map.mpr ⟨(regionID, cd),
        List.mem_filter.mpr ⟨Table.mem_toList.mpr hcd, by simpa using h⟩, rfl⟩

theorem Alike.activeMoveCount (h : Alike t t') : t.activeMoveCount = t'.activeMoveCount := by
  have hnodup : ∀ t : MoveTracker, ((t.cooldowns.toList.filter fun p =>
      t.heartbeatCount < p.2.cooldownExpiry).map Prod.fst).Nodup := fun t =>
    List.pairwise_map.mpr ((t.cooldowns.sorted_toList.filter _).imp fun h => h.ne)
  have hperm := (perm_ext_iff_of_nodup (hnodup t) (hnodup t')).mpr fun id => by
    rw [mem_cooling, mem_cooling, h.cooling]
  have hlen := hperm.length_eq
  rw [length_map, length_map, ← countP_eq_length_filter,
    ← countP_eq_length_filter] at hlen
  rw [MoveTracker.activeMoveCount, MoveTracker.activeMoveCount, h.moves, hlen]

theorem remaining_tick (t : MoveTracker) (moves : Table ℕ PendingMove) (id : ℕ) :
    remaining { t with moves, heartbeatCount := t.heartbeatCount + 1 } id = remaining t id - 1 :=
  (Nat.sub_sub _ _ 1).symm

theorem Alike.advance (h : Alike t t') (regionID : ℕ) (region : Option Region)
    (leader : Option Peer) :
    (t.advance regionID region leader).2 = (t'.advance regionID region leader).2 ∧
      Alike (t.advance regionID region leader).1 (t'.advance regionID region leader).1 := by
  rw [MoveTracker.advance_command, MoveTracker.advance_command, h.moves]
  refine ⟨rfl, ?_⟩
  rw [MoveTracker.advance.eq_def, MoveTracker.advance.eq_def, h.moves]
  have htick : ∀ id, remaining t id - 1 = remaining t' id - 1 := fun id => by rw [h.cooling]
  cases region with
  | none => exact h
  | some r =>
    dsimp only
    cases t'.moves.get regionID with
    | none => exact ⟨rfl, htick⟩
    | some move =>
      dsimp only
      rcases advanceMove regionID r leader move with ⟨_ | move', cmd⟩
      · refine ⟨rfl, fun id => ?_⟩
        -- the cooldown of a finished move lasts equally long
        simp only [remaining, Table.get_put]
        split
        · simp
        · exact htick id
      · exact ⟨rfl, htick⟩

end

/-- The states of two servers that differ in what no answer shows. -/
structure Similar (s s' : State) : Prop where
  carried : s.carried = s'.carried
  trackers : Alike s.moveTracker s'.moveTracker

section
variable {t t' : MoveTracker}

theorem Alike.startMove (h : Alike t t') (regionID : ℕ) (source : Peer) (target now : ℕ) :
    Alike (t.startMove regionID source target now) (t'.startMove regionID source target now) :=
  ⟨congrArg (Table.put · regionID _) h.moves, h.cooling⟩

theorem repair_eq (s : Scheduler) (stores : List Store) (regionID : ℕ) (region : Region) :
    ∃ n c, ∀ v, Scheduler.scheduleReplicaRepair { s with moveTracker := v } stores regionID region =
      ({ s with moveTracker := v, nextID := n }, c) := by
  by_cases henough : s.maxPeerCount ≤ region.peers.countP s.healthy
  · exact ⟨s.nextID, none, fun v => if_pos henough⟩
  · by_cases htarget : s.pickStoreForRegion stores region = 0
    · exact ⟨s.nextID, none, fun v => (if_neg henough).trans (if_pos htarget)⟩
    · refine ⟨s.nextID + 1, some (addNode regionID
        { id := s.nextID, storeId := s.pickStoreForRegion stores region }), fun v => ?_⟩
      exact (if_neg henough).trans (if_neg htarget)

theorem Alike.regionBalance (h : Alike t t') (s : Scheduler) (stores : List Store)
    (regionID now : ℕ) (region : Region) (leader : Option Peer) :
    ∃ u u' n c, Alike u u' ∧ Scheduler.scheduleRegionBalance { s with moveTracker := some t } stores
        regionID now region leader = ({ s with moveTracker := some u, nextID := n }, c) ∧
      Scheduler.scheduleRegionBalance { s with moveTracker := some t' } stores regionID now region
        leader = ({ s with moveTracker := some u', nextID := n }, c) := by
  have hlimit : Scheduler.atRateLimit { s with moveTracker := some t } regionID =
      Scheduler.atRateLimit { s with moveTracker := some t' } regionID := by
    simp only [Scheduler.atRateLimit, Option.any_some, h.activeMoveCount,
      (h.hasPendingMove regionID).1]
  have hover : ∀ v mean, Scheduler.overloaded { s with moveTracker := v } mean =
      s.overloaded mean := fun _ _ => rfl
  have hunder : ∀ v mean, Scheduler.underloaded { s with moveTracker := v } mean =
      s.underloaded mean := fun _ _ => rfl
  simp only [Scheduler.scheduleRegionBalance, hlimit, hover, hunder]
  generalize Float.ofNat _ / Float.ofNat _ = mean
  split
  · exact ⟨t, t', _, _, h, rfl, rfl⟩
  · split
    · exact ⟨t, t', _, _, h, rfl, rfl⟩
    · cases region.peers.find? (s.overloaded mean) with
      | none => exact ⟨t, t', _, _, h, rfl, rfl⟩
      | some source =>
        dsimp only
        split
        · exact ⟨t, t', _, _, h, rfl, rfl⟩
        · exact ⟨_, _, _, _, h.startMove regionID source _ now, rfl, rfl⟩

theorem Alike.schedule (h : Alike t t') (s : Scheduler) (stores stores' : List Store)
    (now regionID : ℕ) (region : Region) (leader : Option Peer) :
    ∃ u u' n c, Alike u u' ∧ Scheduler.schedule { s with moveTracker := some t } stores stores' now
        regionID region leader = ({ s with moveTracker := some u, nextID := n }, c) ∧
      Scheduler.schedule { s with moveTracker := some t' } stores stores' now regionID region
        leader = ({ s with moveTracker := some u', nextID := n }, c) := by
  obtain ⟨hcmd, hadv⟩ := h.advance regionID (some region) leader
  rw [Scheduler.schedule, Scheduler.schedule, Scheduler.advanceMoves, Scheduler.advanceMoves]
  dsimp only
  generalize t.advance regionID (some region) leader = adv at hcmd hadv ⊢
  generalize t'.advance regionID (some region) leader = adv' at hcmd hadv ⊢
  obtain ⟨u, c⟩ := adv
  obtain ⟨u', c'⟩ := adv'
  obtain rfl : c = c' := hcmd
  cases c with
  | some c => exact ⟨u, u', _, _, hadv, rfl, rfl⟩
  | none =>
    obtain ⟨hyes, hpend⟩ := hadv.hasPendingMove regionID
    dsimp only at hyes hpend ⊢
    generalize u.hasPendingMove regionID = pending at hyes hpend ⊢
    generalize u'.hasPendingMove regionID = pending' at hyes hpend ⊢
    obtain ⟨yes, v⟩ := pending
    obtain ⟨yes', v'⟩ := pending'
    obtain rfl : yes = yes' := hyes
    cases yes with
    | true => exact ⟨v, v', _, _, hpend, rfl, rfl⟩
    | false =>
      have hshed : ∀ v, Scheduler.scheduleExcessReplicaShedding { s with moveTracker := v } regionID
          region leader = s.scheduleExcessReplicaShedding regionID region leader := fun _ => rfl
      dsimp only
      rw [hshed (some v), hshed (some v')]
      cases s.scheduleExcessReplicaShedding regionID region leader with
      | some c => exact ⟨v, v', _, _, hpend, rfl, rfl⟩
      | none =>
        obtain ⟨n, c, hrepair⟩ := repair_eq s stores regionID region
        rw [hrepair, hrepair]
        cases c with
        | some c => exact ⟨v, v', _, _, hpend, rfl, rfl⟩
        | none =>
          obtain ⟨w, w', n', c, hw, hb, hb'⟩ :=
            hpend.regionBalance { s with nextID := n } stores' regionID now region leader
          dsimp only at hb hb' ⊢
          rw [hb, hb']
          cases c with
          | some c | none => exact ⟨w, w', _, _, hw, rfl, rfl⟩

end

section
variable {cfg : Config} {s s' : State}

theorem Similar.step (cfg : Config) (h : Similar s s') (call : Call) :
    (step cfg s call).2 = (step cfg s' call).2 ∧
      Similar (step cfg s call).1 (step cfg s' call).1 := by
  obtain ⟨c, t⟩ := s
  obtain ⟨c', t'⟩ := s'
  obtain ⟨rfl, ht⟩ := h
  dsimp only at ht
  cases call with
  | other run => exact ⟨rfl, rfl, ht⟩
  | startMove regionID source target now => exact ⟨rfl, rfl, ht.startMove regionID source target now⟩
  | advanceMove regionID region leader => exact ⟨rfl, rfl, (ht.advance regionID region leader).2⟩
  | cleanupStale timeout now =>
    refine ⟨rfl, rfl, ?_, ht.cooling⟩
    simp only [PdSnapshotState.step, cleanupStale, ht.moves]
  | schedule stores stores' now regionID region leader =>
    obtain ⟨u, u', n, cmd, hu, hs, hs'⟩ := ht.schedule
      { cfg with metadata := c.metadata, nextID := c.nextID, moveTracker := none } stores stores' now
      regionID region leader
    simp only [PdSnapshotState.step, State.scheduler]
    dsimp only at hs hs'
    rw [hs, hs']
    exact ⟨rfl, rfl, hu⟩
  | hasPendingMove regionID =>
    exact ⟨congrArg Answer.pending (ht.hasPendingMove regionID).1, rfl, (ht.hasPendingMove regionID).2⟩
  | activeMoveCount => exact ⟨congrArg Answer.count ht.activeMoveCount, rfl, ht⟩

theorem Similar.answers (h : Similar s s') (calls : List Call) :
    answers cfg s calls = answers cfg s' calls := by
  induction calls generalizing s s' with
  | nil => rfl
  | cons call calls ih =>
    obtain ⟨hanswer, hnext⟩ := h.step cfg call
    rw [PdSnapshotState.answers, PdSnapshotState.answers, hanswer, ih hnext]

theorem answers_concat (s : State) (calls : List Call) (call : Call) :
    answers cfg s (calls ++ [call]) =
      answers cfg s calls ++ [(step cfg (after cfg s calls) call).2] := by
  induction calls generalizing s with
  | nil => rfl
  | cons c calls ih => rw [cons_append, answers, ih, answers, cons_append]; rfl

/-! ### Calls that show a cooldown -/

theorem get_foldl_delete (l : List (ℕ × PendingMove)) (moves : Table ℕ PendingMove) (id : ℕ)
    (h : ∀ move, moves.get id = some move → (id, move) ∈ l) :
    (l.foldl (fun moves p => moves.delete p.1) moves).get id = none := by
  induction l generalizing moves with
  | nil => exact Option.eq_none_iff_forall_ne_some.mpr fun move hmove => nomatch h move hmove
  | cons p l ih =>
    refine ih (moves.delete p.1) fun move hmove => ?_
    rw [Table.get_delete] at hmove
    split at hmove
    · cases hmove
    · rename_i hne
      exact (List.mem_cons.mp (h move hmove)).resolve_left fun heq => hne (congrArg Prod.fst heq)

/-- Ends the move of a region, if it has one. -/
def endMove (t : MoveTracker) (regionID : ℕ) : Call :=
  .cleanupStale 0 (((t.moves.get regionID).map PendingMove.startedAt).getD 0 + 1)

theorem step_endMove (cfg : Config) (s : State) (regionID : ℕ) :
    (step cfg s (endMove s.moveTracker regionID)).1.moveTracker.moves.get regionID = none ∧
      remaining (step cfg s (endMove s.moveTracker regionID)).1.moveTracker regionID =
        remaining s.moveTracker regionID := by
  refine ⟨get_foldl_delete _ _ _ fun move hmove => ?_, rfl⟩
  refine List.mem_filter.mpr ⟨Table.mem_toList.mpr hmove, ?_⟩
  rw [hmove]
  simp

theorem after_ticks (cfg : Config) (s : State) (region : Region) (regionID n : ℕ)
    (h : s.moveTracker.moves.get regionID = none) :
    (after cfg s (List.replicate n (.advanceMove regionID (some region) none))).moveTracker.moves.get
        regionID = none ∧
      remaining (after cfg s (List.replicate n (.advanceMove regionID (some region) none))).moveTracker
        regionID = remaining s.moveTracker regionID - n := by
  induction n generalizing s with
  | zero => exact ⟨h, rfl⟩
  | succ n ih =>
    have hstep : (step cfg s (.advanceMove regionID (some region) none)).1.moveTracker =
        { s.moveTracker with heartbeatCount := s.moveTracker.heartbeatCount + 1 } := by
      simp only [step, MoveTracker.advance, h]
    obtain ⟨hnone, hrem⟩ := ih (step cfg s (.advanceMove regionID (some region) none)).1
      (by rw [hstep]; exact h)
    refine ⟨hnone, hrem.trans ?_⟩
    rw [hstep, remaining_tick, Nat.sub_sub, Nat.add_comm]

/-- The answer to `HasPendingMove` after the move was ended and `n` heartbeats went by. -/
theorem answer_after (cfg : Config) (s : State) (region : Region) (regionID n : ℕ) :
    (step cfg (after cfg s (endMove s.moveTracker regionID ::
        List.replicate n (.advanceMove regionID (some region) none))) (.hasPendingMove regionID)).2 =
      .pending (decide (n < remaining s.moveTracker regionID)) := by
  obtain ⟨hnone, hrem⟩ := step_endMove cfg s regionID
  obtain ⟨hnone', hrem'⟩ := after_ticks cfg _ region regionID n hnone
  refine congrArg Answer.pending ((hasPendingMove_fst _ regionID).trans ?_)
  rw [show after cfg s (_ :: _) = after cfg (step cfg s _).1 _ from rfl, hnone', hrem', hrem]
  simp

/-- **The snapshot answers for the sender exactly when** the cooldown of every region has as
many heartbeats left on the receiver as on the sender. -/
theorem snapshot_carries (cfg : Config) (s s' : State) :
    (∀ calls, answers cfg s calls = answers cfg (applySnapshot s' (generateSnapshot s)) calls) ↔
      ∀ regionID, remaining s.moveTracker regionID = remaining s'.moveTracker regionID := by
  constructor
  · intro h regionID
    have hshown : ∀ n, n < remaining s.moveTracker regionID ↔
        n < remaining s'.moveTracker regionID := by
      intro n
      have hlast := congrArg List.getLast? (h ((endMove s.moveTracker regionID ::
        List.replicate n (.advanceMove regionID (some { id := 0 }) none)) ++
          [.hasPendingMove regionID]))
      rw [answers_concat, answers_concat, getLast?_concat, getLast?_concat, answer_after,
        Option.some_inj] at hlast
      have hreceiver := answer_after cfg (applySnapshot s' (generateSnapshot s)) { id := 0 }
        regionID n
      have hboth := Answer.pending.inj (hlast.trans hreceiver)
      exact decide_eq_decide.mp hboth
    refine le_antisymm (le_of_forall_lt fun n hn => (hshown n).mp hn)
      (le_of_forall_lt fun n hn => (hshown n).mpr hn)
  · intro h calls
    have hsimilar : Similar s (applySnapshot s' (generateSnapshot s)) := ⟨rfl, rfl, h⟩
    exact hsimilar.answers calls

end

def started : State :=
  ⟨⟨true, .empty, .empty, .empty, 0, 0, 1000, 0⟩, ⟨.empty, .empty, 0⟩⟩

/-- A peer of region 7 moves from store 1 to store 4. -/
def oneMove : List Call :=
  .startMove 7 ⟨11, 1, .voter⟩ 4 0 ::
    (List.replicate 4 (.advanceMove 7 (some Scheduler.fourPeers) none) ++
      [.advanceMove 7 (some { Scheduler.fourPeers with peers := Scheduler.fourPeers.peers.tail }) none])

/-- Right after the move the region is in cooldown on the server that made it, and is not on a
fresh server that was sent the snapshot. -/
theorem cooldown_not_carried :
    let cfg : Config := ⟨3, 0.05, 4⟩
    let s := after cfg started oneMove
    answers cfg s [.hasPendingMove 7, .activeMoveCount] = [.pending true, .count 1] ∧
      answers cfg (applySnapshot started (generateSnapshot s))
        [.hasPendingMove 7, .activeMoveCount] = [.pending false, .count 0] := by
  decide +kernel

end PdSnapshotState
