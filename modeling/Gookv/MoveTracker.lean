/-
Moves of region peers between stores: `internal/pd/move_tracker.go`.
-/
import Gookv.Region
import Gookv.StepSystem
import Gookv.Table

namespace Scheduling

open Metapb Option List

inductive ConfChangeType
  | addNode
  | removeNode
  deriving DecidableEq

structure ChangePeer where
  peer : Peer
  changeType : ConfChangeType
  deriving DecidableEq

structure ScheduleCommand where
  regionID : ℕ
  transferLeader : Option Peer := none
  changePeer : Option ChangePeer := none
  deriving DecidableEq

def removeNode (regionID : ℕ) (peer : Peer) : ScheduleCommand :=
  { regionID := regionID, changePeer := some ⟨peer, .removeNode⟩ }

def addNode (regionID : ℕ) (peer : Peer) : ScheduleCommand :=
  { regionID := regionID, changePeer := some ⟨peer, .addNode⟩ }

def transferLeader (regionID : ℕ) (peer : Peer) : ScheduleCommand :=
  { regionID := regionID, transferLeader := some peer }

def ScheduleCommand.Removes (cmd : ScheduleCommand) (peer : Peer) : Prop :=
  cmd.changePeer = some ⟨peer, .removeNode⟩

def ScheduleCommand.Adds (cmd : ScheduleCommand) (peer : Peer) : Prop :=
  cmd.changePeer = some ⟨peer, .addNode⟩

/-! ### The tracker -/

def stabilizeHeartbeats : ℕ := 3

def moveCooldownHeartbeats : ℕ := 10

inductive MoveState
  | adding
  | stabilizing
  | transferring
  | removing
  deriving DecidableEq

structure PendingMove where
  regionID : ℕ
  sourcePeer : Peer
  targetStoreID : ℕ
  targetPeerID : ℕ
  state : MoveState
  startedAt : ℕ
  stabilizeCount : ℕ
  deriving DecidableEq

structure MoveCooldown where
  completedAt : ℕ
  cooldownExpiry : ℕ
  deriving DecidableEq

structure MoveTracker where
  moves : Table ℕ PendingMove
  cooldowns : Table ℕ MoveCooldown
  heartbeatCount : ℕ

def hasPeerOnStore (region : Region) (storeID : ℕ) : Bool :=
  region.peers.any fun p => p.storeId == storeID

def pickTransferTarget (region : Region) (excludeStore1 excludeStore2 : ℕ) : Option Peer :=
  region.peers.find? fun p => p.storeId != excludeStore1 && p.storeId != excludeStore2

def leaderOn (leader : Option Peer) (storeID : ℕ) : Bool :=
  leader.any fun p => p.storeId == storeID

def advanceMove (regionID : ℕ) (region : Region) (leader : Option Peer) (move : PendingMove) :
    Option PendingMove × Option ScheduleCommand :=
  let sourceStoreID := move.sourcePeer.storeId
  match move.state with
  | .adding =>
    if hasPeerOnStore region move.targetStoreID then
      let targetPeer := region.peers.find? fun p => p.storeId == move.targetStoreID
      (some { move with
        targetPeerID := (targetPeer.map Peer.id).getD move.targetPeerID
        state := .stabilizing
        stabilizeCount := 0 }, none)
    else (some move, none)
  | .stabilizing =>
    let move := { move with stabilizeCount := move.stabilizeCount + 1 }
    if move.stabilizeCount < stabilizeHeartbeats then (some move, none)
    else if leaderOn leader sourceStoreID then
      match pickTransferTarget region sourceStoreID 0 with
      | none =>
        (some { move with state := .removing }, some (removeNode regionID move.sourcePeer))
      | some target =>
        (some { move with state := .transferring }, some (transferLeader regionID target))
    else (some { move with state := .removing }, some (removeNode regionID move.sourcePeer))
  | .transferring =>
    if leader.isSome && !leaderOn leader sourceStoreID then
      (some { move with state := .removing }, some (removeNode regionID move.sourcePeer))
    else
      (some move, (pickTransferTarget region sourceStoreID 0).map (transferLeader regionID))
  | .removing =>
    if hasPeerOnStore region sourceStoreID then
      (some move, some (removeNode regionID move.sourcePeer))
    else (none, none)

namespace MoveTracker

def startMove (t : MoveTracker) (regionID : ℕ) (sourcePeer : Peer) (targetStoreID now : ℕ) :
    MoveTracker :=
  let move : PendingMove :=
    { regionID := regionID
      sourcePeer := sourcePeer
      targetStoreID := targetStoreID
      targetPeerID := 0
      state := .adding
      startedAt := now
      stabilizeCount := 0 }
  { t with moves := t.moves.put regionID move }

def advance (t : MoveTracker) (regionID : ℕ) (region : Option Region) (leader : Option Peer) :
    MoveTracker × Option ScheduleCommand :=
  match region with
  | none => (t, none)
  | some region =>
    let count := t.heartbeatCount + 1
    match t.moves.get regionID with
    | none => ({ t with heartbeatCount := count }, none)
    | some move =>
      match advanceMove regionID region leader move with
      | (some move, cmd) =>
        ({ t with moves := t.moves.put regionID move, heartbeatCount := count }, cmd)
      | (none, cmd) =>
        ({ moves := t.moves.delete regionID
           cooldowns := t.cooldowns.put regionID ⟨count, count + moveCooldownHeartbeats⟩
           heartbeatCount := count }, cmd)

def hasPendingMove (t : MoveTracker) (regionID : ℕ) : Bool × MoveTracker :=
  if (t.moves.get regionID).isSome then (true, t)
  else
    match t.cooldowns.get regionID with
    | none => (false, t)
    | some cd =>
      if t.heartbeatCount < cd.cooldownExpiry then (true, t)
      else (false, { t with cooldowns := t.cooldowns.delete regionID })

def activeMoveCount (t : MoveTracker) : ℕ :=
  t.moves.toList.length +
    t.cooldowns.toList.countP fun p => t.heartbeatCount < p.2.cooldownExpiry

end MoveTracker

open MoveTracker

variable {regionID : ℕ} {region : Region} {leader : Option Peer} {move : PendingMove} {peer : Peer}

def Orders (region : Region) (leader : Option Peer) (move : PendingMove) : Prop :=
  match move.state with
  | .adding => False
  | .stabilizing => stabilizeHeartbeats ≤ move.stabilizeCount + 1 ∧
      (leaderOn leader move.sourcePeer.storeId = true →
        pickTransferTarget region move.sourcePeer.storeId 0 = none)
  | .transferring => leader ≠ none ∧ leaderOn leader move.sourcePeer.storeId = false
  | .removing => hasPeerOnStore region move.sourcePeer.storeId = true

theorem removes_removeNode {source : Peer} :
    (removeNode regionID source).Removes peer ↔ peer = source := by
  simp [ScheduleCommand.Removes, removeNode, eq_comm]

theorem not_removes_transferLeader {target : Peer} :
    ¬ (transferLeader regionID target).Removes peer := by
  simp [ScheduleCommand.Removes, transferLeader]

theorem advanceMove_removes_iff :
    (∃ cmd, (advanceMove regionID region leader move).2 = some cmd ∧ cmd.Removes peer) ↔
      peer = move.sourcePeer ∧ Orders region leader move := by
  rw [advanceMove, Orders]
  cases hstate : move.state with
  | adding =>
    dsimp only
    split <;> simp
  | stabilizing =>
    dsimp only
    by_cases hcount : move.stabilizeCount + 1 < stabilizeHeartbeats
    · rw [if_pos hcount]
      simp [not_le.mpr hcount]
    · rw [if_neg hcount]
      by_cases hleader : leaderOn leader move.sourcePeer.storeId = true
      · rw [if_pos hleader]
        cases htarget : pickTransferTarget region move.sourcePeer.storeId 0 with
        | none => simp [removes_removeNode, not_lt.mp hcount]
        | some target => simp [not_removes_transferLeader, hleader]
      · rw [if_neg hleader]
        simp [removes_removeNode, not_lt.mp hcount, hleader]
  | transferring =>
    dsimp only
    by_cases hoff : (leader.isSome && !leaderOn leader move.sourcePeer.storeId) = true
    · rw [if_pos hoff]
      rw [Bool.and_eq_true, Bool.not_eq_true'] at hoff
      simp [removes_removeNode, hoff.2, isSome_iff_ne_none.mp hoff.1]
    · rw [if_neg hoff]
      rw [Bool.and_eq_true, Bool.not_eq_true', isSome_iff_ne_none] at hoff
      simp [not_removes_transferLeader, hoff]
  | removing =>
    dsimp only
    by_cases hsource : hasPeerOnStore region move.sourcePeer.storeId = true
    · rw [if_pos hsource]
      simp [removes_removeNode, hsource]
    · rw [if_neg hsource]
      simp [hsource]

theorem advanceMove_keeps {move' : PendingMove}
    (h : (advanceMove regionID region leader move).1 = some move') :
    move'.sourcePeer = move.sourcePeer ∧ move'.targetStoreID = move.targetStoreID := by
  rw [advanceMove] at h
  cases hstate : move.state with
  | adding =>
    simp only [hstate] at h
    split at h <;> (cases h; exact ⟨rfl, rfl⟩)
  | stabilizing =>
    simp only [hstate] at h
    split at h
    · cases h
      exact ⟨rfl, rfl⟩
    · split at h
      · split at h <;> (cases h; exact ⟨rfl, rfl⟩)
      · cases h
        exact ⟨rfl, rfl⟩
  | transferring =>
    simp only [hstate] at h
    split at h <;> (cases h; exact ⟨rfl, rfl⟩)
  | removing =>
    simp only [hstate] at h
    split at h
    · cases h
      exact ⟨rfl, rfl⟩
    · cases h

/-! ### Sequences of heartbeats -/

structure Heartbeat where
  regionID : ℕ
  region : Option Region
  leader : Option Peer

structure Session where
  tracker : MoveTracker
  last : Option (Heartbeat × ScheduleCommand)

def session (t : MoveTracker) (regionID : ℕ) (source : Peer) (target now : ℕ) :
    StepSystem Session Heartbeat where
  start := ⟨t.startMove regionID source target now, none⟩
  step s hb :=
    let answer := s.tracker.advance hb.regionID hb.region hb.leader
    some ⟨answer.1, answer.2.map fun cmd => (hb, cmd)⟩

def hasOther (region : Region) (storeID : ℕ) : Prop := ∃ p ∈ region.peers, p.storeId ≠ storeID

def Replaced (source : Peer) (target : ℕ) (region : Region) (leader : Option Peer) : Prop :=
  hasPeerOnStore region target = true ∧
    ¬ (leaderOn leader source.storeId = true ∧ hasOther region source.storeId)

def SafeRemoval (regionID : ℕ) (source : Peer) (target : ℕ) (s : Session) : Prop :=
  ∀ hb cmd, s.last = some (hb, cmd) → hb.regionID = regionID → ∀ peer, cmd.Removes peer →
    peer = source ∧ ∃ region, hb.region = some region ∧ Replaced source target region hb.leader

/-! ### The reports on which a removal is due -/

/-- The reports of a region among the heartbeats. -/
def reportsOf (regionID : ℕ) (heartbeats : List Heartbeat) : List (Region × Option Peer) :=
  heartbeats.filterMap fun hb =>
    if hb.regionID = regionID then hb.region.map fun region => (region, hb.leader) else none

/-- Once the removal was ordered: every report up to the first one without the source. -/
def retried (source : Peer) (reports : List (Region × Option Peer)) : List (Region × Option Peer) :=
  reports.takeWhile fun r => hasPeerOnStore r.1 source.storeId

/-- While the leadership is transferred: from the first report with a leader off the source. -/
def transferred (source : Peer) (reports : List (Region × Option Peer)) :
    List (Region × Option Peer) :=
  match reports.dropWhile fun r => !(r.2.isSome && !leaderOn r.2 source.storeId) with
  | [] => []
  | r :: rest => r :: retried source rest

/-- When the target had its three reports: this one, unless the source leads and can hand over. -/
def stabilized (source : Peer) : List (Region × Option Peer) → List (Region × Option Peer)
  | [] => []
  | r :: rest =>
    if leaderOn r.2 source.storeId = true ∧ pickTransferTarget r.1 source.storeId 0 ≠ none then
      transferred source rest
    else r :: retried source rest

/-- From the third report after the first one with a peer on the target store. -/
def removalReports (source : Peer) (target : ℕ) (reports : List (Region × Option Peer)) :
    List (Region × Option Peer) :=
  stabilized source ((reports.dropWhile fun r => !hasPeerOnStore r.1 target).drop 3)

/-- The same from any state of the move. -/
def due (source : Peer) (target : ℕ) (move : Option PendingMove)
    (reports : List (Region × Option Peer)) : List (Region × Option Peer) :=
  match move with
  | none => []
  | some move =>
    match move.state with
    | .adding => removalReports source target reports
    | .stabilizing => stabilized source (reports.drop (2 - move.stabilizeCount))
    | .transferring => transferred source reports
    | .removing => retried source reports

instance : Decidable (Orders region leader move) := by
  unfold Orders
  cases move.state <;> infer_instance

theorem due_cons (regionID : ℕ) {r : Region × Option Peer} {reports : List (Region × Option Peer)} :
    due move.sourcePeer move.targetStoreID (some move) (r :: reports) =
      (if Orders r.1 r.2 move then [r] else []) ++
        due move.sourcePeer move.targetStoreID (advanceMove regionID r.1 r.2 move).1 reports := by
  cases hstate : move.state with
  | adding =>
    simp only [due, hstate, Orders, advanceMove, removalReports, if_false, nil_append,
      dropWhile_cons]
    cases htarget : hasPeerOnStore r.1 move.targetStoreID <;> simp [hstate]
  | stabilizing =>
    by_cases hcount : move.stabilizeCount + 1 < stabilizeHeartbeats
    · have hdrop : 2 - move.stabilizeCount = (2 - (move.stabilizeCount + 1)) + 1 := by
        rw [stabilizeHeartbeats] at hcount
        omega
      simp [due, hstate, Orders, advanceMove, hcount, hdrop, not_le.mpr hcount]
    · have hdrop : 2 - move.stabilizeCount = 0 := by
        rw [stabilizeHeartbeats] at hcount
        omega
      simp only [due, hstate, Orders, advanceMove, if_neg hcount, hdrop, drop_zero, stabilized,
        not_lt.mp hcount, true_and]
      cases hleader : leaderOn r.2 move.sourcePeer.storeId <;>
        cases htarget : pickTransferTarget r.1 move.sourcePeer.storeId 0 <;> simp
  | transferring =>
    simp only [due, hstate, Orders, advanceMove, transferred, dropWhile_cons]
    cases hleader : leaderOn r.2 move.sourcePeer.storeId <;> cases hsome : r.2 <;>
      simp [hstate]
  | removing =>
    simp only [due, hstate, Orders, advanceMove, retried, takeWhile_cons]
    cases hsource : hasPeerOnStore r.1 move.sourcePeer.storeId <;> simp [hstate]

namespace MoveTracker

variable {t : MoveTracker} {region : Option Region}

theorem advance_command : (t.advance regionID region leader).2 =
      region.bind fun r => (t.moves.get regionID).bind fun move =>
        (advanceMove regionID r leader move).2 := by
  rw [advance.eq_def]
  cases region with
  | none => rfl
  | some r =>
    dsimp only [bind_some]
    cases t.moves.get regionID with
    | none => rfl
    | some move =>
      dsimp only [bind_some]
      rcases advanceMove regionID r leader move with ⟨_ | move', cmd⟩ <;> rfl

theorem advance_moves (id : ℕ) : (t.advance regionID region leader).1.moves.get id =
      if id = regionID then
        region.elim (t.moves.get regionID) fun r => (t.moves.get regionID).bind fun move =>
          (advanceMove regionID r leader move).1
      else t.moves.get id := by
  rw [advance.eq_def]
  by_cases hid : id = regionID
  · subst hid
    rw [if_pos rfl]
    cases region with
    | none => rfl
    | some r =>
      dsimp only [elim_some]
      cases hmove : t.moves.get id with
      | none => simp [hmove]
      | some move =>
        dsimp only [bind_some]
        rcases advanceMove id r leader move with ⟨_ | move', cmd⟩
        · simp [Table.get_delete]
        · simp [Table.get_put]
  · rw [if_neg hid]
    cases region with
    | none => rfl
    | some r =>
      dsimp only
      cases hmove : t.moves.get regionID with
      | none => rfl
      | some move =>
        dsimp only
        rcases advanceMove regionID r leader move with ⟨_ | move', cmd⟩
        · simp [Table.get_delete, hid]
        · simp [Table.get_put, hid]

end MoveTracker

def Tracks (regionID : ℕ) (source : Peer) (target : ℕ) (s : Session) : Prop :=
  ∀ move, s.tracker.moves.get regionID = some move →
    move.sourcePeer = source ∧ move.targetStoreID = target

variable {source : Peer} {target now : ℕ} {t : MoveTracker} {s s' : Session} {hb : Heartbeat}

theorem tracks_start (t : MoveTracker) (regionID : ℕ) (source : Peer) (target now : ℕ) :
    Tracks regionID source target (session t regionID source target now).start := by
  intro move hmove
  rw [session, startMove, Table.get_put, if_pos rfl, some_inj] at hmove
  subst hmove
  exact ⟨rfl, rfl⟩

theorem tracks_of_step (h : Tracks regionID source target s)
    (hstep : (session t regionID source target now).step s hb = some s') :
    Tracks regionID source target s' := by
  cases hstep
  intro move hmove
  rw [advance_moves] at hmove
  split at hmove
  · rename_i hid
    rw [← hid] at hmove
    cases hregion : hb.region with
    | none =>
      rw [hregion] at hmove
      exact h move hmove
    | some r =>
      rw [hregion] at hmove
      obtain ⟨move₀, hmove₀, hadvance⟩ := bind_eq_some_iff.mp hmove
      obtain ⟨hsource, htarget⟩ := advanceMove_keeps hadvance
      rw [hsource, htarget]
      exact h move₀ hmove₀
  · exact h move hmove

theorem safeRemoval_step_iff (hstep : (session t regionID source target now).step s hb = some s') :
    SafeRemoval regionID source target s' ↔
      (hb.regionID = regionID → ∀ region, hb.region = some region →
        ∀ move, s.tracker.moves.get regionID = some move → Orders region hb.leader move →
          move.sourcePeer = source ∧ Replaced source target region hb.leader) := by
  cases hstep
  constructor
  · intro h hid region hregion move hmove horders
    -- the answer to this heartbeat
    obtain ⟨cmd, hcmd, hremoves⟩ : ∃ cmd,
        (advanceMove regionID region hb.leader move).2 = some cmd ∧ cmd.Removes move.sourcePeer :=
      advanceMove_removes_iff.mpr ⟨rfl, horders⟩
    have hlast : (s.tracker.advance hb.regionID hb.region hb.leader).2 = some cmd := by
      rw [advance_command, hregion, hid, hmove]
      exact hcmd
    obtain ⟨hpeer, region', hregion', hreplaced⟩ :=
      h hb cmd (by rw [hlast]; rfl) hid move.sourcePeer hremoves
    rw [hregion, some_inj] at hregion'
    subst hregion'
    exact ⟨hpeer, hreplaced⟩
  · intro h hb' cmd hlast hid peer hremoves
    obtain ⟨cmd', hcmd, heq⟩ := map_eq_some_iff.mp hlast
    obtain ⟨rfl, rfl⟩ : hb = hb' ∧ cmd' = cmd := by simpa using heq
    rw [advance_command] at hcmd
    obtain ⟨region, hregion, hcmd⟩ := bind_eq_some_iff.mp hcmd
    obtain ⟨move, hmove, hcmd⟩ := bind_eq_some_iff.mp hcmd
    obtain ⟨hpeer, horders⟩ := advanceMove_removes_iff.mp ⟨cmd', hcmd, hremoves⟩
    rw [hid] at hmove
    obtain ⟨hsource, hreplaced⟩ := h hid region hregion move hmove horders
    exact ⟨hpeer.trans hsource, region, hregion, hreplaced⟩

theorem removals_safe_from (heartbeats : List Heartbeat) (h : Tracks regionID source target s) :
    (session t regionID source target now).AlwaysAfter (SafeRemoval regionID source target)
        s heartbeats ↔
      ∀ r ∈ due source target (s.tracker.moves.get regionID) (reportsOf regionID heartbeats),
        Replaced source target r.1 r.2 := by
  induction heartbeats generalizing s with
  | nil =>
    refine iff_of_true trivial fun r hr => ?_
    rw [reportsOf, filterMap_nil] at hr
    cases hmove : s.tracker.moves.get regionID with
    | none =>
      rw [hmove] at hr
      cases hr
    | some move =>
      rw [hmove, due] at hr
      cases hstate : move.state <;>
        simp [hstate, removalReports, stabilized, transferred, retried] at hr
  | cons hb heartbeats ih =>
    obtain ⟨s', hstep⟩ : ∃ s', (session t regionID source target now).step s hb = some s' :=
      ⟨_, rfl⟩
    have htracks := tracks_of_step h hstep
    have hone : (session t regionID source target now).AlwaysAfter
        (SafeRemoval regionID source target) s (hb :: heartbeats) ↔
        SafeRemoval regionID source target s' ∧ (session t regionID source target now).AlwaysAfter
          (SafeRemoval regionID source target) s' heartbeats := by
      refine ⟨fun hall => hall s' hstep, fun hall s'' hs'' => ?_⟩
      obtain rfl := some.inj (hstep.symm.trans hs'')
      exact hall
    have hmoves : s'.tracker.moves.get regionID =
        (s.tracker.advance hb.regionID hb.region hb.leader).1.moves.get regionID := by
      cases hstep
      rfl
    rw [advance_moves] at hmoves
    have hreports : reportsOf regionID (hb :: heartbeats) =
        (if hb.regionID = regionID then hb.region.map fun region => (region, hb.leader)
          else none).toList ++ reportsOf regionID heartbeats := by
      rw [reportsOf, filterMap_cons]
      cases (if hb.regionID = regionID then hb.region.map fun region => (region, hb.leader)
        else none) <;> rfl
    rw [hone, safeRemoval_step_iff hstep, ih htracks, hmoves, hreports]
    by_cases hid : hb.regionID = regionID
    · rw [if_pos hid, if_pos hid.symm, hid]
      cases hregion : hb.region with
      | none => simp
      | some region =>
        cases hmove : s.tracker.moves.get regionID with
        | none => simp [due]
        | some move =>
          obtain ⟨rfl, rfl⟩ := h move hmove
          simp only [Option.map_some, elim_some, bind_some, some.injEq, forall_eq', toList_some,
            cons_append, nil_append, due_cons regionID, mem_append,
            forall_true_left, true_and]
          by_cases horders : Orders region hb.leader move <;> simp [horders]
    · rw [if_neg hid, if_neg (Ne.symm hid)]
      simp [hid]

/-- **Every removal is safe iff the replacement is there** on the reports on which one is due:
the third after the first with the target or, when the source led then and could hand over, the
first later one with a leader off the source, and from there on every report up to the first
one without the source. -/
theorem removals_safe_iff (t : MoveTracker) (regionID : ℕ) (source : Peer) (target now : ℕ)
    (heartbeats : List Heartbeat) :
    (session t regionID source target now).AlwaysAfter (SafeRemoval regionID source target)
        (session t regionID source target now).start heartbeats ↔
      ∀ r ∈ removalReports source target (reportsOf regionID heartbeats),
        Replaced source target r.1 r.2 := by
  rw [removals_safe_from heartbeats (tracks_start t regionID source target now), session, startMove]
  dsimp only
  rw [Table.get_put, if_pos rfl]
  rfl

theorem removal_without_target :
    ¬ (session ⟨.empty, .empty, 0⟩ 1 { id := 11, storeId := 1 } 4 0).AlwaysAfter
      (SafeRemoval 1 { id := 11, storeId := 1 } 4)
      (session ⟨.empty, .empty, 0⟩ 1 { id := 11, storeId := 1 } 4 0).start
      [⟨1, some { id := 1, peers := [⟨11, 1, .voter⟩, ⟨12, 2, .voter⟩, ⟨14, 4, .voter⟩] },
          some ⟨12, 2, .voter⟩⟩,
        ⟨1, some { id := 1, peers := [⟨11, 1, .voter⟩, ⟨12, 2, .voter⟩] }, some ⟨12, 2, .voter⟩⟩,
        ⟨1, some { id := 1, peers := [⟨11, 1, .voter⟩, ⟨12, 2, .voter⟩] }, some ⟨12, 2, .voter⟩⟩,
        ⟨1, some { id := 1, peers := [⟨11, 1, .voter⟩, ⟨12, 2, .voter⟩] },
          some ⟨12, 2, .voter⟩⟩] := by
  intro h
  obtain ⟨-, h⟩ := h _ rfl
  obtain ⟨-, h⟩ := h _ rfl
  obtain ⟨-, h⟩ := h _ rfl
  obtain ⟨hsafe, -⟩ := h _ rfl
  obtain ⟨-, region, hregion, hreplaced⟩ :=
    hsafe _ (removeNode 1 { id := 11, storeId := 1 }) rfl rfl { id := 11, storeId := 1 } rfl
  cases hregion
  exact absurd hreplaced.1 (by decide)

end Scheduling
