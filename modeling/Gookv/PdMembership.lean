/-
The members of PD's Raft group: `internal/pd/raft_storage.go`, `internal/pd/raft_peer.go`
and `initRaft` of `internal/pd/server.go`.
-/
import Gookv.PdServer
import Gookv.StepSystem

namespace Pd

open List StepSystem

namespace Membership

inductive Payload
  | empty
  | addNode (id : ℕ)
  | command (cmd : Command)
  deriving DecidableEq

structure LogEntry where
  term : ℕ
  payload : Payload
  deriving DecidableEq

structure HardState where
  term : ℕ
  commit : ℕ
  deriving DecidableEq

abbrev ConfState := Finset ℕ

structure RawNode where
  hardState : HardState
  entries : List LogEntry
  applied : ℕ
  voters : ConfState

def RawNode.applyConfChange (n : RawNode) (id : ℕ) : RawNode :=
  { n with voters := insert id n.voters }

def RawNode.bootstrap (n : RawNode) (peers : List ℕ) : RawNode :=
  peers.foldl RawNode.applyConfChange
    { n with
      hardState := ⟨1, peers.length⟩
      entries := peers.map fun id => ⟨1, .addNode id⟩ }

/-! ### A node -/

structure Node where
  persisted : Option HardState
  written : ℕ
  deleted : ℕ
  rawNode : RawNode
  applyState : Raftstore.ApplyState
  memory : State
  background : List ℕ
  recovered : Bool

namespace Node

def initialState (persisted : Option HardState) : HardState × ConfState :=
  (persisted.getD ⟨0, 0⟩, ∅)

def newRawNode (persisted : Option HardState) (entries : List LogEntry) : RawNode where
  hardState := (initialState persisted).1
  entries := entries
  applied := 0
  voters := (initialState persisted).2

def freshStart (peers : List ℕ) : Node where
  persisted := none
  written := 0
  deleted := 0
  rawNode :=
    if peers = [] then newRawNode none [] else (newRawNode none []).bootstrap peers
  applyState := ⟨0, 0, 0⟩
  memory := .initial
  background := []
  recovered := false

def applyCommand (s : Node) (cmd : Command) : Node :=
  match cmd with
  | .compactLog index term =>
    if index ≤ s.applyState.truncatedIndex then s
    else
      -- the entries are deleted later, by a goroutine
      { s with
        applyState := { s.applyState with truncatedIndex := index, truncatedTerm := term }
        background := s.background ++ [index + 1] }
  | cmd => { s with memory := s.memory.applyEntry (some cmd) }

/-- A round of `handleReady` and `replayRaftLog`: configuration changes are skipped. -/
def applyEntry (s : Node) (e : LogEntry) : Node :=
  match e.payload with
  | .empty => s
  | .addNode _ => s
  | .command cmd => s.applyCommand cmd

def readEntries (s : Node) (lo hi : ℕ) : List LogEntry :=
  if s.deleted ≤ lo then (s.rawNode.entries.take hi).drop lo else []

def handleReady (s : Node) (n : ℕ) : Node :=
  let hardState := s.rawNode.hardState
  let saved :=
    { s with
      -- an empty hard state is not written
      persisted := if hardState = ⟨0, 0⟩ then s.persisted else some hardState
      written := s.rawNode.entries.length }
  let committed := s.readEntries s.rawNode.applied (min hardState.commit (s.rawNode.applied + n))
  let applied := s.rawNode.applied + committed.length
  let s' := committed.foldl applyEntry saved
  { s' with
    applyState :=
      if committed = [] then s'.applyState
      else { s'.applyState with appliedIndex := applied }
    rawNode := { s'.rawNode with applied := applied } }

def replayRaftLog (s : Node) : Node :=
  let lastIndex := s.rawNode.entries.length
  if lastIndex ≤ s.applyState.appliedIndex then s
  else
    let s' := (s.readEntries s.applyState.appliedIndex lastIndex).foldl applyEntry s
    { s' with applyState := { s.applyState with appliedIndex := lastIndex } }

def recover (s : Node) (hardState : HardState) : Node :=
  replayRaftLog
    { persisted := some hardState
      written := s.written
      deleted := s.deleted
      rawNode := newRawNode (some hardState) (s.rawNode.entries.take s.written)
      applyState := ⟨0, 0, 0⟩
      memory := .initial
      background := []
      recovered := true }

def initRaft (peers : List ℕ) (s : Node) : Node :=
  match s.persisted with
  | none => freshStart peers
  | some hardState => s.recover hardState

structure Snapshot where
  index : ℕ
  term : ℕ
  confState : ConfState
  data : State

def termOf (s : Node) (index : ℕ) : Option ℕ :=
  if index = s.applyState.truncatedIndex then some s.applyState.truncatedTerm
  else if index < s.applyState.truncatedIndex + 1 then none
  else ((s.readEntries (index - 1) index).head?).map LogEntry.term

def snapshot (s : Node) : Snapshot where
  index := s.applyState.appliedIndex
  term :=
    if 0 < s.applyState.appliedIndex then
      (s.termOf s.applyState.appliedIndex).getD s.applyState.truncatedTerm
    else s.applyState.truncatedTerm
  confState := ∅
  data := s.memory

inductive Action
  | append (keep : ℕ) (entries : List (ℕ × Option Command))
  | setTerm (term : ℕ)
  | setCommit (commit : ℕ)
  | handleReady (n : ℕ)
  | deleteEntries
  | restart
  deriving DecidableEq

def entryOf (p : ℕ × Option Command) : LogEntry := ⟨p.1, p.2.elim .empty .command⟩

def append (s : Node) (keep : ℕ) (entries : List (ℕ × Option Command)) : Node :=
  { s with
    written := min s.written keep
    rawNode :=
      { s.rawNode with
        entries := s.rawNode.entries.take keep ++ entries.map entryOf } }

def setHardState (s : Node) (hardState : HardState) : Node :=
  { s with rawNode := { s.rawNode with hardState := hardState } }

def step (peers : List ℕ) (s : Node) : Action → Option Node
  | .append keep entries =>
    if s.rawNode.hardState.commit ≤ keep ∧ keep ≤ s.rawNode.entries.length then
      some (s.append keep entries)
    else none
  | .setTerm term =>
    if s.rawNode.hardState.term ≤ term then
      some (s.setHardState { s.rawNode.hardState with term := term })
    else none
  | .setCommit commit =>
    if s.rawNode.hardState.commit ≤ commit ∧ commit ≤ s.rawNode.entries.length then
      some (s.setHardState { s.rawNode.hardState with commit := commit })
    else none
  | .handleReady n => some (s.handleReady n)
  | .deleteEntries =>
    match s.background with
    | [] => none
    | endIdx :: background =>
      some { s with deleted := max s.deleted (endIdx - 1), background := background }
  | .restart => some (s.initRaft peers)

def system (peers : List ℕ) : StepSystem Node Action where
  start := freshStart peers
  step := step peers

variable {peers : List ℕ} {s s' : Node}

def config (s : Node) : ConfState × Bool := (s.rawNode.voters, s.recovered)

theorem config_applyCommand (s : Node) (cmd : Command) :
    (s.applyCommand cmd).config = s.config := by
  rw [applyCommand.eq_def]
  split
  · split
    · rfl
    · rfl
  · rfl

theorem config_applyEntry (s : Node) (e : LogEntry) : (s.applyEntry e).config = s.config := by
  rw [applyEntry.eq_def]
  split
  · rfl
  · rfl
  · exact config_applyCommand s _

theorem config_applyEntries (s : Node) (es : List LogEntry) :
    (es.foldl applyEntry s).config = s.config := by
  induction es generalizing s with
  | nil => rfl
  | cons e es ih =>
    rw [foldl_cons, ih, config_applyEntry]

theorem config_handleReady (s : Node) (n : ℕ) : (s.handleReady n).config = s.config := by
  show (foldl applyEntry _ _).config = s.config
  rw [config_applyEntries]
  rfl

theorem config_replayRaftLog (s : Node) : s.replayRaftLog.config = s.config := by
  rw [replayRaftLog]
  dsimp only
  split
  · rfl
  · show (foldl applyEntry _ _).config = s.config
    rw [config_applyEntries]

theorem config_recover (s : Node) (hardState : HardState) :
    (s.recover hardState).config = (∅, true) := by
  rw [recover, config_replayRaftLog]
  rfl

theorem voters_applyConfChanges (n : RawNode) (ids : List ℕ) :
    (ids.foldl RawNode.applyConfChange n).voters = n.voters ∪ ids.toFinset := by
  induction ids generalizing n with
  | nil => simp
  | cons id ids ih =>
    rw [foldl_cons, ih, RawNode.applyConfChange, toFinset_cons, Finset.insert_union,
      Finset.union_insert]

theorem config_freshStart (peers : List ℕ) :
    (freshStart peers).config = (peers.toFinset, false) := by
  by_cases hpeers : peers = []
  · subst hpeers
    rfl
  · have hraw : (freshStart peers).rawNode = (newRawNode none []).bootstrap peers :=
      if_neg hpeers
    rw [config, hraw, RawNode.bootstrap, voters_applyConfChanges]
    show (∅ ∪ peers.toFinset, false) = _
    rw [Finset.empty_union]

def Configured (peers : List ℕ) (s : Node) : Prop :=
  s.config = (peers.toFinset, false) ∨ s.config = (∅, true)

theorem configured_of_step {a : Action} (h : s.Configured peers)
    (hstep : step peers s a = some s') : s'.Configured peers := by
  cases a with
  | append keep entries | setTerm term | setCommit commit =>
    obtain ⟨-, rfl⟩ := of_guard hstep
    exact h
  | handleReady n =>
    cases hstep
    rw [Configured, config_handleReady]
    exact h
  | deleteEntries =>
    rw [step.eq_def] at hstep
    dsimp only at hstep
    split at hstep
    · cases hstep
    · cases hstep
      exact h
  | restart =>
    -- the only step that changes the configuration
    cases hstep
    rw [initRaft.eq_def]
    split
    · exact .inl (config_freshStart peers)
    · exact .inr (config_recover s _)

theorem voters_of_reachable (h : (system peers).Reachable s) :
    s.rawNode.voters = if s.recovered then ∅ else peers.toFinset := by
  have hconfigured : s.Configured peers :=
    ReachableWhen.invariant (P := Configured peers) (.inl (config_freshStart peers))
      (fun s s' a hs _ hstep => configured_of_step hs hstep) h
  rcases hconfigured with hconfig | hconfig
  · obtain ⟨hvoters, hrecovered⟩ := Prod.mk.inj hconfig
    rw [hvoters, hrecovered, if_neg Bool.false_ne_true]
  · obtain ⟨hvoters, hrecovered⟩ := Prod.mk.inj hconfig
    rw [hvoters, hrecovered, if_pos rfl]

def CaughtUp (s : Node) : Prop :=
  s.recovered = true ∧ s.rawNode.applied = s.rawNode.hardState.commit

def HasMembers (peers : List ℕ) (s : Node) : Prop :=
  s.rawNode.voters = peers.toFinset ∧ s.snapshot.confState = peers.toFinset

/-- **Membership survives a restart only when there is none.** -/
theorem membership_survives_iff (peers : List ℕ) (s : Node) (h : (system peers).Reachable s) :
    (s.CaughtUp → s.HasMembers peers) ↔ (s.CaughtUp → peers = []) := by
  refine imp_congr_right fun hcaught => ?_
  have hvoters : s.rawNode.voters = ∅ := by
    rw [voters_of_reachable h, hcaught.1, if_pos rfl]
  -- what is left compares the IDs with the empty set, twice
  rw [HasMembers, hvoters]
  constructor
  · rintro ⟨hempty, -⟩
    exact toFinset_eq_empty_iff peers |>.mp hempty.symm
  · rintro rfl
    exact ⟨rfl, rfl⟩

def restartedRun : List Action := [.handleReady 3, .restart, .handleReady 3]

theorem membership_survives_restarted : ∃ s, (system [1, 2, 3]).Reachable s ∧ s.CaughtUp ∧
    ¬ s.HasMembers [1, 2, 3] := by
  have hrun : (system [1, 2, 3]).runFrom (system [1, 2, 3]).start restartedRun = some _ := rfl
  have hreach := reachable_of_run .start hrun
  refine ⟨_, hreach, ⟨rfl, rfl⟩, fun h => ?_⟩
  have hnil := (membership_survives_iff [1, 2, 3] _ hreach).mp (fun _ => h) ⟨rfl, rfl⟩
  cases hnil

theorem membership_lost : ∃ s, (system [1, 2, 3]).Reachable s ∧ s.CaughtUp ∧ s.rawNode.voters = ∅ ∧
      s.snapshot.confState = ∅ := by
  have hrun : (system [1, 2, 3]).runFrom (system [1, 2, 3]).start restartedRun = some _ := rfl
  exact ⟨_, reachable_of_run .start hrun, ⟨rfl, rfl⟩, rfl, rfl⟩

end Node

end Membership

end Pd
