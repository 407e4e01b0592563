/-
Region metadata, and the commands that change it: `internal/raftstore/split/checker.go`,
`split_admin.go` and `conf_change.go`.
-/
import Gookv.TxnTypes
import Gookv.RaftEntry

namespace Metapb

open Txntypes

inductive PeerRole
  | voter
  | learner
  | incomingVoter
  | demotingVoter
  deriving DecidableEq

structure Peer where
  id : ℕ
  storeId : ℕ := 0
  role : PeerRole := .voter
  deriving DecidableEq

structure RegionEpoch where
  confVer : ℕ := 0
  version : ℕ := 0
  deriving DecidableEq

structure Region where
  id : ℕ
  startKey : Key := []
  endKey : Key := []
  regionEpoch : Option RegionEpoch := none
  peers : List Peer := []
  deriving DecidableEq

/-- The keys of a region. -/
def Region.contains (r : Region) (key : Key) : Prop :=
  ¬ (r.startKey ≠ [] ∧ key < r.startKey) ∧ ¬ (r.endKey ≠ [] ∧ ¬ key < r.endKey)

instance (r : Region) (key : Key) : Decidable (r.contains key) :=
  inferInstanceAs (Decidable (_ ∧ _))

theorem Region.contains_iff {r : Region} {key : Key} :
    r.contains key ↔ r.startKey ≤ key ∧ (r.endKey = [] ∨ key < r.endKey) := by
  have hstart : ¬ (r.startKey ≠ [] ∧ key < r.startKey) ↔ r.startKey ≤ key := by
    rw [← not_lt]
    constructor
    · intro h hlt
      refine h ⟨?_, hlt⟩
      intro hnil
      rw [hnil] at hlt
      exact List.not_lt_nil _ hlt
    · intro h hlt
      exact h hlt.2
  rw [Region.contains, hstart]
  tauto

end Metapb

namespace Raftstore

open Txntypes Metapb

/-! ### Splits -/

inductive SplitError
  | noSplitKeys
  | countMismatch (splitKeys newRegionIDs : ℕ)
  | notAboveStart (key startKey : Key)
  | notBelowEnd (key endKey : Key)
  | notAscending (previous key : Key)
  deriving DecidableEq

structure SplitRegionResult where
  derived : Region
  regions : List Region
  deriving DecidableEq

/-- The loop that validates the split keys; `previous` is the key before. -/
def validateSplitKeys (region : Region) (previous : Option Key) : List Key → Except SplitError Unit
  | [] => .ok ()
  | key :: splitKeys =>
    if region.startKey ≠ [] ∧ ¬ region.startKey < key then
      .error (.notAboveStart key region.startKey)
    else if region.endKey ≠ [] ∧ ¬ key < region.endKey then
      .error (.notBelowEnd key region.endKey)
    else if previous.any fun p => ¬ p < key then .error (.notAscending (previous.getD []) key)
    else validateSplitKeys region (some key) splitKeys

/-- The new regions get the peers of the parent, by position, with the new ids. -/
def newRegionPeers (region : Region) (peerIDs : List ℕ) : List Metapb.Peer :=
  (peerIDs.zip region.peers).map fun p => { id := p.1, storeId := p.2.storeId }

def execBatchSplit (region : Region) (splitKeys : List Key) (newRegionIDs : List ℕ)
    (newPeerIDSets : List (List ℕ)) : Except SplitError SplitRegionResult :=
  if splitKeys = [] then .error .noSplitKeys
  else if splitKeys.length ≠ newRegionIDs.length then
    .error (.countMismatch splitKeys.length newRegionIDs.length)
  else
    match validateSplitKeys region none splitKeys with
    | .error e => .error e
    | .ok () =>
      let epoch := region.regionEpoch.getD {}
      let epoch := { epoch with version := epoch.version + splitKeys.length }
      .ok {
        derived := { region with regionEpoch := some epoch, endKey := splitKeys.headD [] }
        regions := splitKeys.zipIdx.map fun (splitKey, i) => {
          id := newRegionIDs.getD i 0
          regionEpoch := some epoch
          startKey := splitKey
          endKey := (splitKeys[i + 1]?).getD region.endKey
          peers := newRegionPeers region (newPeerIDSets.getD i []) } }

structure SplitAdminRequest where
  splitKey : Key
  newRegionIDs : List ℕ
  newPeerIDSets : List (List ℕ)
  deriving DecidableEq

/-- `ExecSplitAdmin` on the region of the peer; the derived region becomes the peer's. -/
def execSplitAdmin (region : Region) (req : SplitAdminRequest) :
    Except SplitError SplitRegionResult :=
  execBatchSplit region [req.splitKey] req.newRegionIDs req.newPeerIDSets

/-- The checks of a split with one key. -/
def SplitAdminRequest.Accepted (req : SplitAdminRequest) (region : Region) : Prop :=
  req.newRegionIDs.length = 1 ∧
    ¬ (region.startKey ≠ [] ∧ ¬ region.startKey < req.splitKey) ∧
    ¬ (region.endKey ≠ [] ∧ ¬ req.splitKey < region.endKey)

instance (req : SplitAdminRequest) (region : Region) : Decidable (req.Accepted region) :=
  inferInstanceAs (Decidable (_ ∧ _))

def splitEpoch (region : Region) : RegionEpoch :=
  let epoch := region.regionEpoch.getD {}
  { epoch with version := epoch.version + 1 }

/-- The two regions after a split. -/
def splitRegion (region : Region) (req : SplitAdminRequest) : SplitRegionResult where
  derived := { region with regionEpoch := some (splitEpoch region), endKey := req.splitKey }
  regions := [{
    id := req.newRegionIDs.getD 0 0
    regionEpoch := some (splitEpoch region)
    startKey := req.splitKey
    endKey := region.endKey
    peers := newRegionPeers region (req.newPeerIDSets.getD 0 []) }]

theorem execSplitAdmin_ok_iff {region : Region} {req : SplitAdminRequest}
    {result : SplitRegionResult} : execSplitAdmin region req = .ok result ↔
      req.Accepted region ∧ splitRegion region req = result := by
  rw [execSplitAdmin, execBatchSplit, if_neg (by simp), SplitAdminRequest.Accepted,
    List.length_singleton]
  by_cases hcount : 1 = req.newRegionIDs.length
  · rw [if_neg (not_not.mpr hcount), validateSplitKeys]
    by_cases hstart : region.startKey ≠ [] ∧ ¬ region.startKey < req.splitKey
    · simp [hstart]
    · by_cases hend : region.endKey ≠ [] ∧ ¬ req.splitKey < region.endKey
      · rw [if_neg hstart, if_pos hend]
        simp [hend]
      · rw [if_neg hstart, if_neg hend, if_neg (by simp), validateSplitKeys]
        show Except.ok (splitRegion region req) = .ok result ↔ _
        rw [Except.ok.injEq]
        exact ⟨fun h => ⟨⟨hcount.symm, hstart, hend⟩, h⟩, fun h => h.2⟩
  · rw [if_pos hcount]
    simp [Ne.symm hcount]

inductive ConfChangeType
  | addNode
  | removeNode
  | updateNode
  | addLearnerNode
  deriving DecidableEq

/-- The store of a new peer, from the context of the change. -/
def decodePeerFromContext (context : List UInt8) (nodeID : ℕ) : Option Metapb.Peer :=
  if 8 ≤ context.length then some { id := nodeID, storeId := bigEndian context } else none

def removePeerByNodeID (peers : List Metapb.Peer) (nodeID : ℕ) : List Metapb.Peer :=
  peers.eraseP fun p => p.id = nodeID

/-- The region after `processConfChange`. -/
def processConfChange (region : Region) (changeType : ConfChangeType) (nodeID : ℕ)
    (context : List UInt8) : Region :=
  let epoch := region.regionEpoch.getD {}
  let region := { region with regionEpoch := some { epoch with confVer := epoch.confVer + 1 } }
  match changeType with
  | .addNode | .addLearnerNode =>
    let targetPeer := (decodePeerFromContext context nodeID).getD { id := nodeID }
    if region.peers.any fun p => p.id = nodeID then region
    else { region with peers := region.peers ++ [targetPeer] }
  | .removeNode => { region with peers := removePeerByNodeID region.peers nodeID }
  | .updateNode => region

end Raftstore
