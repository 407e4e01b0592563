/-
Restarting a store: the regions' logs are applied to the engine a second time.
-/
import Gookv.StepSystem
import Gookv.LastWrite
import Gookv.TxnTypes
import Gookv.RaftEntry

namespace StoreRestart

open Txntypes Raftstore

inductive CF
  | default
  | lock
  | write
  | raft
  | unknown
  deriving DecidableEq

def dataCFs : List CF := [.default, .lock, .write]

def cfPrefix : CF → Option UInt8
  | .default => some 0x00
  | .lock => some 0x01
  | .write => some 0x02
  | .raft => some 0x03
  | .unknown => none

abbrev Engine := CF → Key → Option Value

inductive Modify
  | put (cf : CF) (key : Key) (value : Value)
  | delete (cf : CF) (key : Key)
  | deleteRange (cf : CF) (key endKey : Key)
  deriving DecidableEq

def Modify.cf : Modify → CF
  | put cf _ _ => cf
  | delete cf _ => cf
  | deleteRange cf _ _ => cf

def Modify.writeAt (cf : CF) (key : Key) : Modify → Option (Option Value)
  | put c k v => if c = cf ∧ k = key then some (some v) else none
  | delete c k => if c = cf ∧ k = key then some none else none
  | deleteRange c k e => if c = cf ∧ ¬ key < k ∧ key < e then some none else none

def Engine.apply (engine : Engine) (m : Modify) : Engine := fun cf key =>
  (m.writeAt cf key).getD (engine cf key)

def applyModifies (engine : Engine) (modifies : List Modify) : Engine :=
  if modifies.all fun m => (cfPrefix m.cf).isSome then modifies.foldl Engine.apply engine
  else engine

inductive Request
  | put (cf : CF) (key : Key) (value : Value)
  | delete (cf : CF) (key : Key)
  | deleteRange (cf : CF) (startKey endKey : Key)
  | other
  deriving DecidableEq

def requestsToModifies (reqs : List Request) : List Modify :=
  reqs.filterMap fun
    | .put cf key value => some (.put cf key value)
    | .delete cf key => some (.delete cf key)
    | .deleteRange cf startKey endKey => some (.deleteRange cf startKey endKey)
    | .other => none

def applyEntry (engine : Engine) (reqs : List Request) : Engine :=
  if reqs = [] then engine
  else if requestsToModifies reqs = [] then engine
  else applyModifies engine (requestsToModifies reqs)

def applyEntriesForPeer (engine : Engine) (entries : List (List Request)) : Engine :=
  entries.foldl applyEntry engine

/-- A committed entry; `other` has nothing that concerns the data. -/
inductive Command
  | data (requests : List Request)
  | splitAdmin (newRegionIDs : List ℕ)
  | compactLog (req : CompactLogRequest)
  | other
  deriving DecidableEq

def Command.requests? : Command → Option (List Request)
  | data requests => some requests
  | _ => none

/-- The peer: its committed log (index `i` at position `i - 1`), how much was handed out, the queue
of the apply worker and how far it has come, and the persisted apply state. -/
structure Peer where
  regionID : ℕ
  log : List Command := []
  delivered : ℕ := 0
  tasks : List (List (List Request) × ℕ) := []
  worked : ℕ := 0
  applyState : ApplyState := ⟨0, 0, 0⟩
  deriving DecidableEq

structure State where
  engine : Engine
  peers : List Peer

inductive Action
  | commit (regionID : ℕ) (command : Command)
  | handleReady (regionID count : ℕ)
  | applyTask (regionID : ℕ)
  | bootstrapRegion (parent child : ℕ)
  deriving DecidableEq

def State.find (s : State) (regionID : ℕ) : Option Peer :=
  s.peers.find? fun p => p.regionID = regionID

def State.setPeer (s : State) (peer : Peer) : State :=
  { s with peers := s.peers.map fun p => if p.regionID = peer.regionID then peer else p }

def applyAdmin (st : ApplyState) : Command → ApplyState
  | .compactLog req =>
    match execCompactLog st req with
    | .ok (some st') => st'
    | _ => st
  | _ => st

/-- `handleReady` on a batch: the admin entries first, the data entries to the worker. -/
def Peer.handleReady (p : Peer) (count : ℕ) : Peer :=
  let batch := (p.log.drop p.delivered).take count
  let last := p.delivered + count
  let applyState := batch.foldl applyAdmin p.applyState
  let dataEntries := batch.filterMap Command.requests?
  if dataEntries = [] then
    { p with delivered := last, applyState := { applyState with appliedIndex := last } }
  else
    { p with delivered := last, applyState, tasks := p.tasks ++ [(dataEntries, last)] }

/-- The worker is done up to `last`; the applied index never moves back. -/
def Peer.finishTask (p : Peer) (tasks : List (List (List Request) × ℕ)) (last : ℕ) : Peer :=
  { p with
    tasks
    worked := last
    applyState :=
      { p.applyState with appliedIndex := max p.applyState.appliedIndex last } }

def Peer.children (p : Peer) : List ℕ :=
  (p.log.take p.delivered).flatMap fun
    | .splitAdmin newRegionIDs => newRegionIDs
    | _ => []

def step (s : State) : Action → Option State
  | .commit regionID command =>
    (s.find regionID).map fun p => s.setPeer { p with log := p.log ++ [command] }
  | .handleReady regionID count =>
    match s.find regionID with
    | none => none
    | some p =>
      if 0 < count ∧ p.delivered + count ≤ p.log.length then some (s.setPeer (p.handleReady count))
      else none
  | .applyTask regionID =>
    match s.find regionID with
    | none => none
    | some p =>
      match p.tasks with
      | [] => none
      | (entries, last) :: tasks =>
        some ({ s with engine := applyEntriesForPeer s.engine entries }.setPeer
          (p.finishTask tasks last))
  | .bootstrapRegion parent child =>
    match s.find parent with
    | none => none
    | some p =>
      if child ∈ p.children ∧ s.find child = none then
        some { s with peers := s.peers ++ [{ regionID := child }] }
      else none

def start : State := ⟨fun _ _ => none, [{ regionID := 1 }]⟩

def system : StepSystem State Action := ⟨start, step⟩

/-! ### The restart -/

def Peer.redelivered (p : Peer) : List (List Request) :=
  (p.log.drop p.applyState.truncatedIndex).filterMap Command.requests?

def State.KeepsData (s : State) : Prop :=
  ∀ order, Interleaves (s.peers.map Peer.redelivered) order →
    ∀ cf ∈ dataCFs, ∀ key, applyEntriesForPeer s.engine order cf key = s.engine cf key

def written (reqs : List Request) : List Modify :=
  if (requestsToModifies reqs).all fun m => (cfPrefix m.cf).isSome then requestsToModifies reqs
  else []

def entryWrite (cf : CF) (key : Key) (reqs : List Request) : Option (Option Value) :=
  LastWrite (Modify.writeAt cf key) (written reqs)

def State.Settled (s : State) : Prop :=
  ∀ p ∈ s.peers, ∀ cf ∈ dataCFs, ∀ key v,
    LastWrite (entryWrite cf key) p.redelivered = some v → v = s.engine cf key

theorem foldl_apply (ms : List Modify) (engine : Engine) (cf : CF) (key : Key) :
    ms.foldl Engine.apply engine cf key =
      (LastWrite (Modify.writeAt cf key) ms).getD (engine cf key) := by
  rw [← LastWrite.foldl_getD]
  induction ms generalizing engine with
  | nil => rfl
  | cons m ms ih =>
    rw [List.foldl_cons, List.foldl_cons, ih]
    rfl

theorem applyEntry_apply (engine : Engine) (reqs : List Request) (cf : CF) (key : Key) :
    applyEntry engine reqs cf key = (entryWrite cf key reqs).getD (engine cf key) := by
  unfold applyEntry entryWrite written
  split
  · rename_i hnil
    subst hnil
    rfl
  · split
    · rename_i hnil
      rw [hnil]
      rfl
    · unfold applyModifies
      split
      · exact foldl_apply _ _ _ _
      · rfl

theorem applyEntriesForPeer_apply (entries : List (List Request)) (engine : Engine) (cf : CF)
    (key : Key) : applyEntriesForPeer engine entries cf key =
      (LastWrite (entryWrite cf key) entries).getD (engine cf key) := by
  rw [← LastWrite.foldl_getD, applyEntriesForPeer]
  induction entries generalizing engine with
  | nil => rfl
  | cons reqs entries ih => rw [List.foldl_cons, List.foldl_cons, ih, applyEntry_apply]

theorem State.Settled.keepsData {s : State} (h : s.Settled) : s.KeepsData := by
  intro order horder cf hcf key
  rw [applyEntriesForPeer_apply]
  refine Interleaves.forall_getD_iff.mpr (fun l hl v hv => ?_) order horder
  obtain ⟨p, hp, rfl⟩ := List.mem_map.mp hl
  exact h p hp cf hcf key v hv

/-- **A restart keeps the data exactly when each region's last re-delivered write to
a key writes what the key holds.** -/
theorem keepsData_iff (s : State) : s.KeepsData ↔ s.Settled := by
  refine ⟨fun hkeeps p hp cf hcf key v hv => ?_, State.Settled.keepsData⟩
  refine Interleaves.forall_getD_iff.mp (fun order horder => ?_) _ (List.mem_map_of_mem hp) v hv
  rw [← applyEntriesForPeer_apply]
  exact hkeeps order horder cf hcf key

def overwritingRun : List Action :=
  [.commit 1 (.data [.put .default [0x6d] [1]]),
   .handleReady 1 1,
   .applyTask 1,
   .commit 1 (.splitAdmin [2]),
   .handleReady 1 1,
   .bootstrapRegion 1 2,
   .commit 2 (.data [.put .default [0x6d] [2]]),
   .handleReady 2 1,
   .applyTask 2]

theorem overwrites_reachable : ∃ s, system.Reachable s ∧ s.engine .default [0x6d] = some [2] ∧
    ∃ order, Interleaves (s.peers.map Peer.redelivered) order ∧
      applyEntriesForPeer s.engine order .default [0x6d] = some [1] ∧ ¬ s.KeepsData := by
  obtain ⟨s, hrun, hnow, hlogs⟩ : ∃ s, system.runFrom start overwritingRun = some s ∧
      s.engine .default [0x6d] = some [2] ∧
      s.peers.map Peer.redelivered =
        [[[.put .default [0x6d] [1]]], [[.put .default [0x6d] [2]]]] :=
    ⟨_, rfl, rfl, rfl⟩
  have horder : Interleaves (s.peers.map Peer.redelivered)
      [[.put .default [0x6d] [2]], [.put .default [0x6d] [1]]] := by
    rw [hlogs]
    exact .cons (Merge.nil.left.right) (.cons (Merge.nil.left) .nil)
  have hlater : applyEntriesForPeer s.engine
      [[.put .default [0x6d] [2]], [.put .default [0x6d] [1]]] .default [0x6d] = some [1] := by
    rw [applyEntriesForPeer_apply]
    rfl
  refine ⟨s, StepSystem.reachable_of_run .start hrun, hnow, _, horder, hlater, fun hkeeps => ?_⟩
  have hsame := hkeeps _ horder .default (by decide) [0x6d]
  rw [hlater, hnow] at hsame
  exact absurd hsame (by decide)

theorem applyAdmin_truncatedIndex (st : ApplyState) (c : Command) :
    st.truncatedIndex ≤ (applyAdmin st c).truncatedIndex := by
  unfold applyAdmin
  split
  · split
    · rename_i hexec
      unfold execCompactLog at hexec
      split at hexec
      · cases hexec
      · split at hexec
        · cases hexec
        · split at hexec
          · cases hexec
          · cases hexec
            exact (Nat.lt_of_not_le ‹_›).le
    · exact le_rfl
  · exact le_rfl

end StoreRestart
