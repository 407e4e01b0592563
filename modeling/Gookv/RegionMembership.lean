/-
The voters of a region's peer over a restart: `NewPeer` and `SetSnapTaskCh` of
`internal/raftstore/peer.go`, `InitialState` of its `storage.go`, `applyConfChangeEntry` of its
`conf_change.go`, `BootstrapRegion` and `CreatePeer` of `internal/server/coordinator.go`.
-/
import Gookv.SnapshotRegion

namespace RegionMembership

open Txntypes Metapb Raftstore SnapshotRegion LastWrite List Option StepSystem

inductive Entry
  | confChange (cc : ConfChange)
  | splitAdmin (req : SplitAdminRequest)
  | compactLog (req : CompactLogRequest)
  | other
  deriving DecidableEq

def changeVoters (voters : Finset ℕ) (cc : ConfChange) : Finset ℕ :=
  if cc.nodeID = 0 then voters
  else
    match cc.changeType with
    | .addNode => insert cc.nodeID voters
    | .addLearnerNode => voters.erase cc.nodeID
    | .removeNode => voters.erase cc.nodeID
    | .updateNode => voters

def applyConfChange (voters : Finset ℕ) (cc : ConfChange) : Option (Finset ℕ) :=
  if changeVoters voters cc = ∅ then none else some (changeVoters voters cc)

structure RawNode where
  log : List Entry
  commit : ℕ
  applied : ℕ
  voters : Finset ℕ
  deriving DecidableEq

def addNode (id : ℕ) : ConfChange := ⟨.addNode, id, []⟩

def RawNode.bootstrap (n : RawNode) (peers : List ℕ) : RawNode :=
  { n with
    log := peers.map fun id => .confChange (addNode id)
    commit := peers.length
    voters := (peers.map addNode).foldl changeVoters n.voters }

open Entry

/-! ### The peer -/

/-- What is on disk, and the region that `SetRegion` has set. -/
structure PeerStorage where
  commit : ℕ
  log : List Entry
  applyState : ApplyState
  region : Option Region
  deriving DecidableEq

def PeerStorage.initialState (s : PeerStorage) : ℕ × Finset ℕ :=
  (s.commit, ((s.region.map fun r => r.peers.map Metapb.Peer.id).getD []).toFinset)

def newRawNode (s : PeerStorage) : RawNode where
  log := s.log
  commit := s.initialState.1
  applied := s.applyState.truncatedIndex
  voters := s.initialState.2

structure Peer where
  region : Region
  storage : PeerStorage
  rawNode : RawNode
  deriving DecidableEq

namespace Peer

def setSnapTaskCh (p : Peer) : Peer :=
  { p with storage := { p.storage with region := some p.region } }

/-- `BootstrapRegion`, or `CreatePeer` for a region without persisted state. -/
def bootstrapPeer (region : Region) (created : Bool) : Peer :=
  let storage : PeerStorage := ⟨0, [], ⟨0, 0, 0⟩, none⟩
  let rawNode := (newRawNode storage).bootstrap (region.peers.map Metapb.Peer.id)
  let applyState : ApplyState :=
    if created ∧ region.startKey ≠ [] then ⟨0, 1, 1⟩ else storage.applyState
  setSnapTaskCh ⟨region, { storage with applyState }, rawNode⟩

def restart (p : Peer) (region : Region) : Peer :=
  let storage : PeerStorage := { p.storage with region := none }
  setSnapTaskCh ⟨region, storage, newRawNode storage⟩

def applyEntry (p : Peer) : Entry → Option Peer
  | .confChange cc =>
    (applyConfChange p.rawNode.voters cc).map fun voters =>
      { p with
        rawNode := { p.rawNode with voters }
        region := processConfChange p.region cc.changeType cc.nodeID cc.context }
  | .splitAdmin req =>
    some { p with region := (RegionPeer.applySplitAdminEntry ⟨p.region, none⟩ (some req)).region }
  | .compactLog req =>
    some { p with storage := { p.storage with
      applyState := StoreRestart.applyAdmin p.storage.applyState (.compactLog req) } }
  | .other => some p

def applyEntries (p : Peer) (entries : List Entry) : Option Peer := entries.foldlM applyEntry p

def handedOut (p : Peer) : ℕ := max p.rawNode.applied p.storage.applyState.truncatedIndex

def saveReady (p : Peer) : Peer :=
  { p with storage := { p.storage with
    commit := p.rawNode.commit
    log := p.rawNode.log ++ p.storage.log.drop p.rawNode.log.length } }

def committedEntries (p : Peer) (count : ℕ) : List Entry :=
  (p.rawNode.log.take (min p.rawNode.commit (p.handedOut + count))).drop p.handedOut

def advance (p : Peer) (last : ℕ) (inline : Bool) : Peer :=
  { p with
    rawNode := { p.rawNode with applied := last }
    storage :=
      if inline then
        { p.storage with applyState := { p.storage.applyState with appliedIndex := last } }
      else p.storage }

def handleReady (p : Peer) (count : ℕ) (inline : Bool) : Option Peer :=
  let committed := p.committedEntries count
  (p.saveReady.applyEntries committed).map fun p' =>
    if committed = [] then p' else p'.advance (p.handedOut + committed.length) inline

def onApplyResult (p : Peer) (index : ℕ) : Peer :=
  { p with storage := { p.storage with applyState :=
    { p.storage.applyState with appliedIndex := max p.storage.applyState.appliedIndex index } } }

inductive Action
  | append (keep : ℕ) (entries : List Entry)
  | commit (index : ℕ)
  | handleReady (count : ℕ) (inline : Bool)
  | onApplyResult (index : ℕ)
  | restart (region : Region)
  deriving DecidableEq

def step (p : Peer) : Action → Option Peer
  | .append keep entries =>
    if p.rawNode.commit ≤ keep ∧ keep ≤ p.rawNode.log.length then
      some { p with rawNode := { p.rawNode with log := p.rawNode.log.take keep ++ entries } }
    else none
  | .commit index =>
    if p.rawNode.commit ≤ index ∧ index ≤ p.rawNode.log.length then
      some { p with rawNode := { p.rawNode with commit := index } }
    else none
  | .handleReady count inline => p.handleReady count inline
  | .onApplyResult index =>
    if index ≤ p.rawNode.applied then some (p.onApplyResult index) else none
  | .restart region => some (p.restart region)

def system (region : Region) (created : Bool) : StepSystem Peer Action where
  start := bootstrapPeer region created
  step := step

def redelivered (p : Peer) : List Entry :=
  (p.storage.log.take p.storage.commit).drop p.storage.applyState.truncatedIndex

def pending (p : Peer) : List Entry := (p.storage.log.take p.storage.commit).drop p.handedOut

def Survives (p : Peer) : Prop :=
  ∀ p', p.applyEntries p.pending = some p' → ∀ region,
    ((p.restart region).applyEntries p.redelivered).map (fun q => q.rawNode.voters) =
      some p'.rawNode.voters

end Peer

def Entry.change (id : ℕ) : Entry → Option Bool
  | .confChange cc =>
    if cc.nodeID = id ∧ id ≠ 0 then
      match cc.changeType with
      | .addNode => some true
      | .addLearnerNode => some false
      | .removeNode => some false
      | .updateNode => none
    else none
  | _ => none

theorem mem_changeVoters (voters : Finset ℕ) (cc : ConfChange) (id : ℕ) :
    decide (id ∈ changeVoters voters cc) =
      ((Entry.confChange cc).change id).getD (decide (id ∈ voters)) := by
  obtain ⟨changeType, nodeID, context⟩ := cc
  by_cases hzero : nodeID = 0
  · -- a change of node 0 is skipped
    have hnone : (confChange ⟨changeType, nodeID, context⟩).change id = none :=
      if_neg fun h => h.2 (h.1.symm.trans hzero)
    rw [hnone, changeVoters, if_pos hzero]
    rfl
  · by_cases hid : nodeID = id
    · subst hid
      cases changeType <;> simp [changeVoters, change, hzero]
    · have hne : id ≠ nodeID := Ne.symm hid
      cases changeType <;> simp [changeVoters, change, hzero, hid, hne]

namespace Peer

structure Processed (p : Peer) (entries : List Entry) (p' : Peer) : Prop where
  rawNode : p'.rawNode = { p.rawNode with voters := p'.rawNode.voters }
  storage : p'.storage = { p.storage with applyState := p'.storage.applyState }
  truncated : p.storage.applyState.truncatedIndex ≤ p'.storage.applyState.truncatedIndex
  voters : ∀ id, decide (id ∈ p'.rawNode.voters) =
    (LastWrite (Entry.change id) entries).getD (decide (id ∈ p.rawNode.voters))

variable {e : Entry} {entries : List Entry}

theorem Processed.cons {p p₁ p₂ : Peer}
    (h : Processed p [e] p₁) (h' : Processed p₁ entries p₂) : Processed p (e :: entries) p₂ where
  rawNode := by rw [h'.rawNode, h.rawNode]
  storage := by rw [h'.storage, h.storage]
  truncated := h.truncated.trans h'.truncated
  voters id := by
    rw [h'.voters, h.voters, LastWrite.cons, LastWrite.cons]
    cases LastWrite (Entry.change id) entries <;> rfl

theorem processed_applyEntry {p' p : Peer} (h : p.applyEntry e = some p') :
    Processed p [e] p' := by
  cases e with
  | confChange cc =>
    obtain ⟨voters, hvoters, rfl⟩ := map_eq_some_iff.mp h
    rw [applyConfChange] at hvoters
    split_ifs at hvoters
    cases hvoters
    refine ⟨rfl, rfl, le_rfl, fun id => ?_⟩
    exact mem_changeVoters p.rawNode.voters cc id
  | splitAdmin req =>
    cases h
    exact ⟨rfl, rfl, le_rfl, fun _ => rfl⟩
  | compactLog req =>
    cases h
    exact ⟨rfl, rfl, StoreRestart.applyAdmin_truncatedIndex _ _, fun _ => rfl⟩
  | other =>
    cases h
    exact ⟨rfl, rfl, le_rfl, fun _ => rfl⟩

theorem processed_applyEntries {p p' : Peer}
    (h : p.applyEntries entries = some p') : Processed p entries p' := by
  induction entries generalizing p with
  | nil =>
    cases h
    exact ⟨rfl, rfl, le_rfl, fun _ => rfl⟩
  | cons e entries ih =>
    obtain ⟨p₁, hfirst, hrest⟩ := bind_eq_some_iff.mp h
    exact (processed_applyEntry hfirst).cons (ih hrest)

/-! ### Runs -/

structure Inv (p : Peer) : Prop where
  commit_le : p.storage.commit ≤ p.rawNode.commit
  commit_le_length : p.rawNode.commit ≤ p.rawNode.log.length
  saved : p.storage.log.take p.storage.commit = p.rawNode.log.take p.storage.commit
  applied_le : p.storage.applyState.truncatedIndex < p.rawNode.applied →
    p.rawNode.applied ≤ p.storage.commit
  voters : ∀ id v, LastWrite (Entry.change id) ((p.rawNode.log.take p.rawNode.applied).drop
    p.storage.applyState.truncatedIndex) = some v → decide (id ∈ p.rawNode.voters) = v

theorem drop_eq_append {l : List Entry} {a b : ℕ} (h : a ≤ b) :
    l.drop a = (l.take b).drop a ++ l.drop b := by
  rw [drop_take, ← Nat.add_sub_cancel' h, ← drop_drop, Nat.add_sub_cancel' h,
    take_append_drop]

theorem truncatedIndex_le_handedOut (p : Peer) :
    p.storage.applyState.truncatedIndex ≤ p.handedOut := le_max_right _ _

section

variable {p p' : Peer}

variable {inline v : Bool} {count id : ℕ}

theorem Inv.voters_handedOut (h : p.Inv)
    (hv : LastWrite (Entry.change id) ((p.rawNode.log.take p.handedOut).drop
      p.storage.applyState.truncatedIndex) = some v) : decide (id ∈ p.rawNode.voters) = v := by
  rcases le_total p.rawNode.applied p.storage.applyState.truncatedIndex with hle | hle
  · -- nothing behind the truncated index was handed out
    rw [handedOut, max_eq_right hle, drop_eq_nil_of_le (length_take_le _ _)] at hv
    cases hv
  · rw [handedOut, max_eq_left hle] at hv
    exact h.voters id v hv

theorem Inv.saveReady (h : p.Inv) : p.saveReady.Inv where
  commit_le := le_rfl
  commit_le_length := h.commit_le_length
  saved := List.take_append_of_le_length h.commit_le_length
  applied_le hlt := (h.applied_le hlt).trans h.commit_le
  voters := h.voters

@[simp] theorem advance_commit (p : Peer) (last : ℕ) (inline : Bool) :
    (p.advance last inline).storage.commit = p.storage.commit := by
  cases inline <;> rfl

@[simp] theorem advance_log (p : Peer) (last : ℕ) (inline : Bool) :
    (p.advance last inline).storage.log = p.storage.log := by
  cases inline <;> rfl

@[simp] theorem advance_truncatedIndex (p : Peer) (last : ℕ) (inline : Bool) :
    (p.advance last inline).storage.applyState.truncatedIndex =
      p.storage.applyState.truncatedIndex := by
  cases inline <;> rfl

theorem Inv.applyCommitted (h : p.Inv) (hsaved : p.storage.commit = p.rawNode.commit)
    (hne : p.committedEntries count ≠ [])
    (happly : p.applyEntries (p.committedEntries count) = some p') :
    (p'.advance (p.handedOut + (p.committedEntries count).length) inline).Inv := by
  obtain ⟨hraw, hstorage, htruncated, hvoters⟩ := processed_applyEntries happly
  have hlen : (p.committedEntries count).length =
      min p.rawNode.commit (p.handedOut + count) - p.handedOut := by
    rw [committedEntries, length_drop, length_take,
      min_eq_left ((min_le_left _ _).trans h.commit_le_length)]
  have hpos := length_pos_of_ne_nil hne
  obtain ⟨last, hlast⟩ : ∃ last, p.handedOut + (p.committedEntries count).length = last := ⟨_, rfl⟩
  have hmin : min p.rawNode.commit (p.handedOut + count) = last := by omega
  have hle : last ≤ p.rawNode.commit := hmin ▸ min_le_left _ _
  have hlog : p'.rawNode.log = p.rawNode.log := by rw [hraw]
  have hcommit : p'.rawNode.commit = p.rawNode.commit := by rw [hraw]
  have hdisk : p'.storage.log = p.storage.log ∧ p'.storage.commit = p.storage.commit := by
    rw [hstorage]
    exact ⟨rfl, rfl⟩
  rw [hlast]
  constructor
  · rw [advance_commit, hdisk.2]
    exact h.commit_le.trans hcommit.ge
  · exact hcommit.trans_le (h.commit_le_length.trans (congrArg length hlog).ge)
  · rw [advance_commit, advance_log, hdisk.1, hdisk.2]
    exact h.saved.trans (congrArg (take p.storage.commit) hlog.symm)
  · intro _
    rw [advance_commit, hdisk.2, hsaved]
    exact hle
  · intro id v hv
    show decide (id ∈ p'.rawNode.voters) = v
    rw [hvoters]
    -- the truncated index may be larger now, which only drops changes
    have hall : LastWrite (change id) ((p.rawNode.log.take last).drop
        p.storage.applyState.truncatedIndex) = some v := by
      refine of_suffix ?_ hv
      rw [advance_truncatedIndex]
      show ((p'.rawNode.log.take last).drop _) <:+ _
      rw [hlog]
      exact drop_suffix_drop_left _ htruncated
    have hsplit : (p.rawNode.log.take last).drop p.storage.applyState.truncatedIndex =
        (p.rawNode.log.take p.handedOut).drop p.storage.applyState.truncatedIndex ++
          p.committedEntries count := by
      rw [drop_eq_append p.truncatedIndex_le_handedOut, take_take,
        min_eq_left (by omega), committedEntries, hmin]
    rw [hsplit, append] at hall
    cases hbatch : LastWrite (change id) (p.committedEntries count) with
    | none =>
      rw [hbatch, none_or] at hall
      exact h.voters_handedOut hall
    | some w =>
      rw [hbatch, some_or] at hall
      exact some.inj hall

theorem Inv.handleReady (h : p.Inv) (hready : p.handleReady count inline = some p') : p'.Inv := by
  obtain ⟨q, hq, rfl⟩ := map_eq_some_iff.mp hready
  by_cases hnil : p.committedEntries count = []
  · rw [if_pos hnil]
    rw [hnil] at hq
    cases hq
    exact h.saveReady
  · rw [if_neg hnil]
    exact h.saveReady.applyCommitted rfl hnil hq

theorem Inv.restart (h : p.Inv) (region : Region) : (p.restart region).Inv where
  commit_le := le_rfl
  commit_le_length := by
    -- the committed part of the log is on disk
    have hlen := congrArg length h.saved
    rw [length_take, length_take,
      min_eq_left (h.commit_le.trans h.commit_le_length)] at hlen
    exact min_eq_left_iff.mp hlen
  saved := rfl
  applied_le hlt := absurd hlt (lt_irrefl _)
  voters id v hv := by
    have hnone : LastWrite (change id) ((p.storage.log.take
        p.storage.applyState.truncatedIndex).drop p.storage.applyState.truncatedIndex) = some v := hv
    rw [drop_eq_nil_of_le (length_take_le _ _)] at hnone
    cases hnone

theorem Inv.step (h : p.Inv) {a : Action} (hstep : p.step a = some p') : p'.Inv := by
  cases a with
  | append keep entries =>
    obtain ⟨⟨hcommit, hkeep⟩, rfl⟩ := of_guard hstep
    have hlen : (p.rawNode.log.take keep).length = keep := length_take_of_le hkeep
    have htake : ∀ {n}, n ≤ keep →
        (p.rawNode.log.take keep ++ entries).take n = p.rawNode.log.take n := by
      intro n hn
      rw [take_append_of_le_length (hn.trans hlen.ge), take_take, min_eq_left hn]
    have hsaved := h.commit_le.trans hcommit
    refine ⟨h.commit_le, ?_, h.saved.trans (htake hsaved).symm, h.applied_le, fun id v hv => ?_⟩
    · show p.rawNode.commit ≤ (p.rawNode.log.take keep ++ entries).length
      rw [length_append, hlen]
      omega
    · have hv' : LastWrite (change id) (((p.rawNode.log.take keep ++ entries).take
          p.rawNode.applied).drop p.storage.applyState.truncatedIndex) = some v := hv
      by_cases hlt : p.storage.applyState.truncatedIndex < p.rawNode.applied
      · rw [htake ((h.applied_le hlt).trans hsaved)] at hv'
        exact h.voters id v hv'
      · rw [drop_eq_nil_of_le ((length_take_le _ _).trans (not_lt.mp hlt))] at hv'
        cases hv'
  | commit index =>
    obtain ⟨⟨hle, hlen⟩, rfl⟩ := of_guard hstep
    exact ⟨h.commit_le.trans hle, hlen, h.saved, h.applied_le, h.voters⟩
  | handleReady count inline => exact h.handleReady hstep
  | onApplyResult index =>
    obtain ⟨-, rfl⟩ := of_guard hstep
    exact ⟨h.commit_le, h.commit_le_length, h.saved, h.applied_le, h.voters⟩
  | restart region =>
    cases hstep
    exact h.restart region

theorem inv_bootstrapPeer (region : Region) (created : Bool) : (bootstrapPeer region created).Inv where
  commit_le := Nat.zero_le _
  commit_le_length := (List.length_map _).ge
  saved := rfl
  applied_le hlt := absurd hlt (Nat.not_lt_zero _)
  voters id v hv := by
    -- nothing was handed out yet
    rw [show (bootstrapPeer region created).rawNode.applied = 0 from rfl, take_zero,
      drop_nil] at hv
    cases hv

theorem inv_of_reachable {region : Region} {created : Bool}
    (h : (system region created).Reachable p) : p.Inv :=
  ReachableWhen.invariant (inv_bootstrapPeer region created)
    (fun _ _ _ hp _ hstep => hp.step hstep) h

theorem Inv.voters_of_redelivered (h : p.Inv) (hpending : p.applyEntries p.pending = some p')
    (hv : LastWrite (Entry.change id) p.redelivered = some v) :
    decide (id ∈ p'.rawNode.voters) = v := by
  rw [(processed_applyEntries hpending).voters]
  by_cases hle : p.handedOut ≤ p.storage.commit
  · have hsplit : p.redelivered = (p.rawNode.log.take p.handedOut).drop
        p.storage.applyState.truncatedIndex ++ p.pending := by
      rw [redelivered, drop_eq_append p.truncatedIndex_le_handedOut, h.saved, take_take,
        min_eq_left hle, ← h.saved]
      rfl
    rw [hsplit, append] at hv
    cases hlast : LastWrite (change id) p.pending with
    | none =>
      rw [hlast, none_or] at hv
      exact h.voters_handedOut hv
    | some w =>
      rw [hlast, some_or] at hv
      exact some.inj hv
  · -- then the log is compacted behind the committed part, and nothing is handed out again
    have htruncated : p.storage.commit ≤ p.storage.applyState.truncatedIndex := by
      by_contra hlt
      have happlied := h.applied_le
      rw [handedOut] at hle
      omega
    rw [redelivered, drop_eq_nil_of_le ((length_take_le _ _).trans htruncated)] at hv
    cases hv

def LeavesVoter : Finset ℕ → List Entry → Prop
  | _, [] => True
  | voters, .confChange cc :: entries =>
    changeVoters voters cc ≠ ∅ ∧ LeavesVoter (changeVoters voters cc) entries
  | voters, _ :: entries => LeavesVoter voters entries

instance decidableLeavesVoter :
    (voters : Finset ℕ) → (entries : List Entry) → Decidable (LeavesVoter voters entries)
  | _, [] => inferInstanceAs (Decidable True)
  | voters, .confChange cc :: entries =>
    have := decidableLeavesVoter (changeVoters voters cc) entries
    inferInstanceAs (Decidable (_ ∧ _))
  | voters, .splitAdmin _ :: entries => decidableLeavesVoter voters entries
  | voters, .compactLog _ :: entries => decidableLeavesVoter voters entries
  | voters, .other :: entries => decidableLeavesVoter voters entries

theorem exists_applyEntries_iff :
    (∃ p', p.applyEntries entries = some p') ↔ LeavesVoter p.rawNode.voters entries := by
  induction entries generalizing p with
  | nil => exact ⟨fun _ => trivial, fun _ => ⟨p, rfl⟩⟩
  | cons e entries ih =>
    cases e with
    | confChange cc =>
      rw [LeavesVoter]
      by_cases hempty : changeVoters p.rawNode.voters cc = ∅
      · have hpanic : p.applyEntries (.confChange cc :: entries) = none := by
          simp [applyEntries, applyEntry, applyConfChange, hempty]
        simp [hpanic, hempty]
      · obtain ⟨q, hq, hvoters⟩ : ∃ q, p.applyEntry (.confChange cc) = some q ∧
            q.rawNode.voters = changeVoters p.rawNode.voters cc :=
          ⟨_, by rw [applyEntry, applyConfChange, if_neg hempty]; rfl, rfl⟩
        have hrest : p.applyEntries (.confChange cc :: entries) = q.applyEntries entries := by
          rw [applyEntries, foldlM_cons, hq]
          rfl
        rw [hrest, ih, hvoters]
        exact ⟨fun h => ⟨hempty, h⟩, And.right⟩
    | splitAdmin req => exact ih
    | compactLog req => exact ih
    | other => exact ih

/-- **When the voters survive a restart**: each of them is named by a configuration change that
is handed out again, and some voter is left at each of these changes. -/
theorem voters_survive_iff {region : Region} {created : Bool}
    (h : (system region created).Reachable p) :
    p.Survives ↔ ∀ p', p.applyEntries p.pending = some p' →
      LeavesVoter ∅ p.redelivered ∧
        ∀ id ∈ p'.rawNode.voters, ∃ e ∈ p.redelivered, e.change id ≠ none := by
  refine forall_congr' fun p' => imp_congr_right fun hpending => ?_
  constructor
  · intro hsurvives
    obtain ⟨q, hq, hvoters⟩ := map_eq_some_iff.mp (hsurvives p.region)
    refine ⟨exists_applyEntries_iff.mp ⟨q, hq⟩, fun id hid => ?_⟩
    by_contra hnone
    push Not at hnone
    -- a voter that no change names is not a voter of the restarted peer
    have hmem := (processed_applyEntries hq).voters id
    rw [eq_none_iff.mpr hnone, hvoters, decide_eq_true hid] at hmem
    cases hmem
  · rintro ⟨hleaves, hnamed⟩ region'
    obtain ⟨q, hq⟩ := (exists_applyEntries_iff (p := p.restart region')).mpr hleaves
    rw [hq, map_some, some_inj]
    ext id
    rw [← decide_eq_decide, (processed_applyEntries hq).voters]
    cases hlast : LastWrite (change id) p.redelivered with
    | none =>
      have hno : id ∉ p'.rawNode.voters := by
        intro hid
        obtain ⟨e, he, hchange⟩ := hnamed id hid
        exact hchange (eq_none_iff.mp hlast e he)
      rw [decide_eq_false hno]
      rfl
    | some v => exact ((inv_of_reachable h).voters_of_redelivered hpending hlast).symm

end

def threePeers : Region where
  id := 1
  peers := [⟨1, 1, .voter⟩, ⟨2, 2, .voter⟩, ⟨3, 3, .voter⟩]

theorem voters_survive_iff_bootstrapped :
    ∃ p, (system threePeers false).Reachable p ∧ p.rawNode.voters = {1, 2, 3} ∧ p.Survives := by
  have hrun : (system threePeers false).runFrom (system threePeers false).start
      [.handleReady 3 true] = some _ := rfl
  have hreach := reachable_of_run .start hrun
  refine ⟨_, hreach, by decide, (voters_survive_iff hreach).mpr fun p' hp' => ?_⟩
  cases hp'
  decide

theorem voters_lost_reachable : (∃ p, (system threePeers false).Reachable p ∧ p.pending = [] ∧
      p.rawNode.voters = {1, 2, 3} ∧
      ∀ region, ((p.restart region).applyEntries p.redelivered).map
        (fun q => q.rawNode.voters) = some ∅) ∧
    (∃ p, (system threePeers false).Reachable p ∧ p.pending = [] ∧
      p.rawNode.voters = {1, 2, 3} ∧ p.redelivered = []) := by
  have hrun : (system threePeers false).runFrom (system threePeers false).start
      [.handleReady 3 true, .append 3 [.compactLog ⟨3, 1⟩], .commit 4, .handleReady 1 true] =
      some _ := rfl
  exact ⟨⟨_, reachable_of_run .start hrun, rfl, by decide, fun _ => rfl⟩,
    ⟨_, .start, rfl, by decide, rfl⟩⟩

end Peer

end RegionMembership
