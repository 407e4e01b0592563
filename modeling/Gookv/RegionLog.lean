/-
The Raft log of a region: data entries, and the entries that change the region.
-/
import Gookv.SnapshotRegion

namespace RegionLog

open Txntypes Metapb Raftstore StoreRestart SnapshotRegion

/-- A committed entry; `other` is a compaction, an empty one or one that does not unmarshal. -/
inductive Command
  | data (regionEpoch : Option RegionEpoch) (requests : List Request)
  | admin (e : AdminEntry)
  | other
  deriving DecidableEq

def Command.requests? : Command → Option (List Request)
  | data _ requests => some requests
  | _ => none

def dataEntries (log : List Command) : List (List Request) := log.filterMap Command.requests?

def applyRegion (region : Region) : Command → Region
  | .admin e => (RegionPeer.apply ⟨region, none⟩ e).region
  | _ => region

def regionAfter (region : Region) (log : List Command) : Region := log.foldl applyRegion region

structure Peer where
  region : Region
  delivered : ℕ := 0
  applied : ℕ := 0
  deriving DecidableEq

/-- `handleReady` with the next `count` entries; data entries wait for the worker. -/
def Peer.handleReady (p : Peer) (log : List Command) (count : ℕ) : Peer :=
  { p with
    region := regionAfter p.region ((log.drop p.delivered).take count)
    delivered := p.delivered + count }

def dataAt (log : List Command) (i : ℕ) : Option (List Request) := log[i]?.bind Command.requests?

def applyAt (engine : Engine) (log : List Command) (i : ℕ) : Engine :=
  match dataAt log i with
  | some reqs => applyEntry engine reqs
  | none => engine

theorem dataEntries_take_succ (log : List Command) (i : ℕ) :
    dataEntries (log.take (i + 1)) = dataEntries (log.take i) ++ (dataAt log i).toList := by
  rw [dataEntries, List.take_add_one, List.filterMap_append, dataAt]
  cases log[i]? with
  | none => rfl
  | some c =>
    show _ = _ ++ c.requests?.toList
    cases hc : c.requests? <;> simp [dataEntries, hc]

theorem applyAt_apply (engine : Engine) (log : List Command) (i : ℕ) (cf : CF) (key : Key) :
    applyAt engine log i cf key =
      ((dataAt log i).bind (entryWrite cf key)).getD (engine cf key) := by
  unfold applyAt
  cases dataAt log i with
  | none => rfl
  | some reqs => exact applyEntry_apply engine reqs cf key

/-! ### Versions -/

def version (region : Region) : ℕ := (region.regionEpoch.getD {}).version

structure Follows (r r' : Region) : Prop where
  version_le : version r ≤ version r'
  range : version r' = version r → r'.startKey = r.startKey ∧ r'.endKey = r.endKey

namespace Follows

theorem refl (r : Region) : Follows r r := ⟨le_rfl, fun _ => ⟨rfl, rfl⟩⟩

theorem trans {r₁ r₂ r₃ : Region} (h : Follows r₁ r₂) (h' : Follows r₂ r₃) : Follows r₁ r₃ where
  version_le := h.version_le.trans h'.version_le
  range := by
    intro hsame
    -- the version in between is caught between two equal ones
    have hle := h.version_le
    have hle' := h'.version_le
    obtain ⟨hstart, hend⟩ := h.range (by omega)
    obtain ⟨hstart', hend'⟩ := h'.range (by omega)
    exact ⟨hstart'.trans hstart, hend'.trans hend⟩

theorem contains_iff {r r' : Region} (h : Follows r r') (hsame : version r' = version r)
    (key : Key) : r'.contains key ↔ r.contains key := by
  obtain ⟨hstart, hend⟩ := h.range hsame
  rw [Region.contains, Region.contains, hstart, hend]

end Follows

theorem follows_processConfChange (region : Region) (changeType : ConfChangeType) (nodeID : ℕ)
    (context : List UInt8) :
    Follows region (processConfChange region changeType nodeID context) := by
  unfold processConfChange
  cases changeType with
  | addNode | addLearnerNode =>
    dsimp only
    split <;> exact ⟨le_rfl, fun _ => ⟨rfl, rfl⟩⟩
  | removeNode | updateNode => exact ⟨le_rfl, fun _ => ⟨rfl, rfl⟩⟩

theorem follows_splitAdmin (p : RegionPeer) (req : Option SplitAdminRequest) :
    Follows p.region (p.applySplitAdminEntry req).region := by
  unfold RegionPeer.applySplitAdminEntry
  split
  · exact .refl _
  · rename_i req
    cases hsplit : execSplitAdmin p.region req with
    | error e => exact .refl _
    | ok result =>
      obtain ⟨-, rfl⟩ := execSplitAdmin_ok_iff.mp hsplit
      have hversion : version (splitRegion p.region req).derived = version p.region + 1 := rfl
      refine ⟨?_, ?_⟩
      · show version p.region ≤ version (splitRegion p.region req).derived
        omega
      · intro hsame
        change version (splitRegion p.region req).derived = version p.region at hsame
        omega

theorem follows_applyRegion (region : Region) (c : Command) :
    Follows region (applyRegion region c) := by
  have hconf : ∀ e : AdminEntry,
      Follows region (RegionPeer.applyConfChangeEntry ⟨region, none⟩ e).region := by
    intro e
    unfold RegionPeer.applyConfChangeEntry
    split
    · exact .refl _
    · exact follows_processConfChange _ _ _ _
  cases c with
  | data regionEpoch requests | other => exact .refl _
  | admin e =>
    cases e with
    | confChange cc | confChangeV2 cc => exact hconf _
    | splitAdmin req => exact follows_splitAdmin ⟨region, none⟩ req

theorem follows_regionAfter (region : Region) (log : List Command) :
    Follows region (regionAfter region log) := by
  induction log generalizing region with
  | nil => exact .refl region
  | cons c log ih => exact (follows_applyRegion region c).trans (ih (applyRegion region c))

theorem regionAfter_append (region : Region) (log more : List Command) :
    regionAfter region (log ++ more) = regionAfter (regionAfter region log) more :=
  List.foldl_append

theorem follows_take (region : Region) (log : List Command) {m n : ℕ} (hmn : m ≤ n) :
    Follows (regionAfter region (log.take m)) (regionAfter region (log.take n)) := by
  obtain ⟨d, rfl⟩ := Nat.exists_eq_add_of_le hmn
  rw [List.take_add, regionAfter_append]
  exact follows_regionAfter _ _

structure Peer.InStep (region : Region) (log : List Command) (p : Peer) : Prop where
  delivered : p.delivered ≤ log.length
  region : p.region = regionAfter region (log.take p.delivered)

namespace Peer.InStep

variable {region : Region} {log : List Command} {p : Peer}

theorem handleReady (h : p.InStep region log) {count : ℕ}
    (hcount : p.delivered + count ≤ log.length) : (p.handleReady log count).InStep region log where
  delivered := hcount
  region := by
    show regionAfter p.region _ = regionAfter region (log.take (p.delivered + count))
    rw [h.region, ← regionAfter_append, List.take_add]

theorem commit (h : p.InStep region log) (c : Command) : p.InStep region (log ++ [c]) where
  delivered := by
    have hle := h.delivered
    rw [List.length_append]
    omega
  region := by rw [List.take_append_of_le_length h.delivered, h.region]

end Peer.InStep

end RegionLog
