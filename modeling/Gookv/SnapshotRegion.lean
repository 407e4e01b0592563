/-
Which region a snapshot describes: `SetSnapTaskCh`, `UpdateRegion` and
`applyConfChangeEntry` of `internal/raftstore`, `generateSnapshot` of its `SnapWorker`.
-/
import Gookv.Region
import Gookv.SnapshotData

namespace SnapshotRegion

open Txntypes Metapb Raftstore Rocks StoreRestart Option

structure RegionPeer where
  region : Region
  storageRegion : Option Region
  deriving DecidableEq

namespace RegionPeer

def setSnapTaskCh (p : RegionPeer) : RegionPeer := { p with storageRegion := some p.region }

def updateRegion (p : RegionPeer) (region : Region) : RegionPeer := { p with region }

end RegionPeer

structure ConfChange where
  changeType : ConfChangeType
  nodeID : ℕ
  context : List UInt8
  deriving DecidableEq

structure ConfChangeV2 where
  changes : List (ConfChangeType × ℕ)
  context : List UInt8
  deriving DecidableEq

inductive AdminEntry
  | confChange (cc : Option ConfChange)
  | confChangeV2 (cc : Option ConfChangeV2)
  | splitAdmin (req : Option SplitAdminRequest)
  deriving DecidableEq

def AdminEntry.change : AdminEntry → Option ConfChange
  | .confChange cc => cc
  | .confChangeV2 (some ⟨(changeType, nodeID) :: _, context⟩) =>
    some ⟨changeType, nodeID, context⟩
  | _ => none

def RegionPeer.applyConfChangeEntry (p : RegionPeer) (e : AdminEntry) : RegionPeer :=
  match e.change with
  | none => p
  | some cc => p.updateRegion (processConfChange p.region cc.changeType cc.nodeID cc.context)

def RegionPeer.applySplitAdminEntry (p : RegionPeer) (req : Option SplitAdminRequest) :
    RegionPeer :=
  match req with
  | none => p
  | some req =>
    match execSplitAdmin p.region req with
    | .error _ => p
    | .ok result => p.updateRegion result.derived

def RegionPeer.apply (p : RegionPeer) : AdminEntry → RegionPeer
  | .splitAdmin req => p.applySplitAdminEntry req
  | e => p.applyConfChangeEntry e

def generateSnapshot (crc32 : List UInt8 → UInt32) (engine : DB) (regionID : ℕ)
    (region : Option Region) : Option (SnapshotData × List ℕ) :=
  let startKey := (region.map Region.startKey).getD []
  let endKey := (region.map Region.endKey).getD []
  (generateSnapshotData crc32 engine regionID startKey endKey).map fun sd =>
    (sd, (region.map fun r => r.peers.map Metapb.Peer.id).getD [])

open RegionPeer

structure SameScope (r r' : Region) : Prop where
  startKey : r.startKey = r'.startKey
  endKey : r.endKey = r'.endKey
  peers : r.peers = r'.peers

theorem SameScope.refl (r : Region) : SameScope r r := ⟨rfl, rfl, rfl⟩

theorem SameScope.trans {r₁ r₂ r₃ : Region} (h : SameScope r₁ r₂) (h' : SameScope r₂ r₃) :
    SameScope r₁ r₃ :=
  ⟨h.startKey.trans h'.startKey, h.endKey.trans h'.endKey, h.peers.trans h'.peers⟩

theorem SameScope.symm {r₁ r₂ : Region} (h : SameScope r₁ r₂) : SameScope r₂ r₁ :=
  ⟨h.startKey.symm, h.endKey.symm, h.peers.symm⟩

def Describes (p : RegionPeer) : Prop := ∃ r, p.storageRegion = some r ∧ SameScope r p.region

/-! ### When it is so -/

def ConfChange.KeepsPeers (cc : ConfChange) (region : Region) : Prop :=
  match cc.changeType with
  | .addNode | .addLearnerNode => ∃ peer ∈ region.peers, peer.id = cc.nodeID
  | .removeNode => ∀ peer ∈ region.peers, peer.id ≠ cc.nodeID
  | .updateNode => True

def Keeps (p : RegionPeer) : AdminEntry → Prop
  | .splitAdmin req => ∀ r ∈ req, r.Accepted p.region → r.splitKey = p.region.endKey
  | e => ∀ cc ∈ e.change, cc.KeepsPeers p.region

def step (p : RegionPeer) (e : AdminEntry) : Option RegionPeer := some (p.apply e)

def system (region : Region) : StepSystem RegionPeer AdminEntry :=
  ⟨RegionPeer.setSnapTaskCh ⟨region, none⟩, step⟩

theorem peers_add_iff (peers : List Metapb.Peer) (nodeID : ℕ) (target : Metapb.Peer) :
    (peers = if peers.any fun peer => peer.id = nodeID then peers else peers ++ [target]) ↔
      ∃ peer ∈ peers, peer.id = nodeID := by
  split
  · rename_i hany
    simpa using hany
  · rename_i hany
    simpa using hany

theorem peers_remove_iff (peers : List Metapb.Peer) (nodeID : ℕ) :
    peers = removePeerByNodeID peers nodeID ↔ ∀ peer ∈ peers, peer.id ≠ nodeID := by
  rw [removePeerByNodeID, eq_comm, List.eraseP_eq_self_iff]
  simp

theorem sameScope_processConfChange (region : Region) (cc : ConfChange) :
    SameScope region (processConfChange region cc.changeType cc.nodeID cc.context) ↔
      cc.KeepsPeers region := by
  have hpeers : ∀ {r' : Region}, r'.startKey = region.startKey → r'.endKey = region.endKey →
      (SameScope region r' ↔ region.peers = r'.peers) := by
    intro r' hstart hend
    exact ⟨fun h => h.peers, fun h => ⟨hstart.symm, hend.symm, h⟩⟩
  have hadd := peers_add_iff region.peers cc.nodeID
    ((decodePeerFromContext cc.context cc.nodeID).getD { id := cc.nodeID })
  unfold ConfChange.KeepsPeers processConfChange
  cases cc.changeType with
  | addNode | addLearnerNode =>
    dsimp only
    rw [← hadd]
    split <;> exact hpeers rfl rfl
  | removeNode =>
    dsimp only
    rw [← peers_remove_iff]
    exact hpeers rfl rfl
  | updateNode => exact iff_of_true ⟨rfl, rfl, rfl⟩ trivial

theorem sameScope_splitAdmin (p : RegionPeer) (req : Option SplitAdminRequest) :
    SameScope p.region (p.applySplitAdminEntry req).region ↔
      ∀ r ∈ req, r.Accepted p.region → r.splitKey = p.region.endKey := by
  cases req with
  | none => exact iff_of_true (.refl _) (by simp)
  | some req =>
    simp only [mem_some_iff, forall_eq']
    cases hsplit : execSplitAdmin p.region req with
    | error e =>
      rw [applySplitAdminEntry, hsplit]
      refine iff_of_true (.refl _) ?_
      intro haccepted
      have hok := execSplitAdmin_ok_iff.mpr ⟨haccepted, rfl⟩
      rw [hsplit] at hok
      cases hok
    | ok result =>
      obtain ⟨haccepted, rfl⟩ := execSplitAdmin_ok_iff.mp hsplit
      rw [applySplitAdminEntry, hsplit]
      constructor
      · intro h _
        exact h.endKey.symm
      · intro h
        exact ⟨rfl, (h haccepted).symm, rfl⟩

theorem sameScope_apply (p : RegionPeer) (e : AdminEntry) :
    SameScope p.region (p.apply e).region ↔ Keeps p e := by
  have hconf : SameScope p.region (p.applyConfChangeEntry e).region ↔
      ∀ cc ∈ e.change, cc.KeepsPeers p.region := by
    cases hchange : e.change with
    | none =>
      rw [applyConfChangeEntry, hchange]
      exact iff_of_true (.refl _) (by simp)
    | some cc =>
      rw [applyConfChangeEntry, hchange]
      simp only [mem_some_iff, forall_eq']
      exact sameScope_processConfChange p.region cc
  cases e with
  | confChange cc | confChangeV2 cc => exact hconf
  | splitAdmin req => exact sameScope_splitAdmin p req

theorem storageRegion_apply (p : RegionPeer) (e : AdminEntry) :
    (p.apply e).storageRegion = p.storageRegion := by
  have hconf : (p.applyConfChangeEntry e).storageRegion = p.storageRegion := by
    unfold applyConfChangeEntry
    split <;> rfl
  cases e with
  | confChange cc | confChangeV2 cc => exact hconf
  | splitAdmin req =>
    show (p.applySplitAdminEntry req).storageRegion = p.storageRegion
    unfold applySplitAdminEntry
    split
    · rfl
    · split <;> rfl

theorem describes_apply {p : RegionPeer} (h : Describes p) (e : AdminEntry) :
    Describes (p.apply e) ↔ Keeps p e := by
  obtain ⟨r, hr, hscope⟩ := h
  rw [← sameScope_apply]
  constructor
  · rintro ⟨r', hr', hscope'⟩
    rw [storageRegion_apply, hr, some_inj] at hr'
    subst hr'
    exact hscope.symm.trans hscope'
  · intro hsame
    exact ⟨r, by rw [storageRegion_apply, hr], hscope.trans hsame⟩

/-- **Snapshots describe the region all along a sequence of entries exactly when each entry
leaves range and peers as they are.** -/
theorem describes_iff (region : Region) (es : List AdminEntry) :
    (system region).AlwaysAfter Describes (system region).start es ↔
      (system region).Meets Keeps (system region).start es := by
  refine StepSystem.alwaysAfter_iff (I := Describes) ?_ ?_ ?_ es
  · intro p p' e hp hkeeps hstep
    obtain rfl : p.apply e = p' := some.inj hstep
    have hp' := (describes_apply hp e).mpr hkeeps
    exact ⟨hp', hp'⟩
  · intro p p' e hp hkeeps hstep hp'
    obtain rfl : p.apply e = p' := some.inj hstep
    exact hkeeps ((describes_apply hp e).mp hp')
  · exact ⟨region, rfl, .refl region⟩

def wholeRegion : Region := { id := 1, peers := [{ id := 10, storeId := 1 }] }

def splitAtM : AdminEntry := .splitAdmin (some ⟨[0x6d], [2], [[20]]⟩)

/-- **A snapshot with the data of a sibling**: after the split the region ends at `m`, but a
snapshot still has the key `z`. -/
theorem sibling_in_snapshot :
    let p := (system wholeRegion).start.apply splitAtM
    let engine : DB := Table.put Table.empty (prefixKey 0 [0x7a]) [9]
    p.region.endKey = [0x6d] ∧ ¬ p.region.contains [0x7a] ∧
      (∃ sd, generateSnapshot (fun _ => 0) engine 1 p.storageRegion = some (sd, [10]) ∧
        sd.has .default [0x7a] [9]) ∧
      ¬ (system wholeRegion).AlwaysAfter Describes (system wholeRegion).start [splitAtM] := by
  intro p engine
  have hhas : (generated (fun _ => 0) engine 1 [] []).has .default [0x7a] [9] :=
    (generated_has (by decide) _ _).mpr ⟨by rfl, by decide⟩
  refine ⟨by rfl, by decide, ⟨generated (fun _ => 0) engine 1 [] [], by rfl, hhas⟩, ?_⟩
  intro h
  obtain ⟨⟨r, hr, hscope⟩, -⟩ := h p rfl
  obtain rfl : wholeRegion = r := some.inj hr
  exact absurd hscope.endKey (by decide)

end SnapshotRegion
