/-
PD's metadata in memory: `MetadataStore` of `internal/pd/server.go`.

The maps of the store are tables; where the source ranges over a map, the order of the
iteration is an argument.
-/
import Gookv.Codec
import Gookv.RegionHistory
import Gookv.Table

namespace Metadata

open Txntypes Metapb Codec

inductive StoreState
  | up
  | disconnected
  | down
  | tombstone
  deriving DecidableEq

structure Store where
  id : ℕ
  deriving DecidableEq

structure MetadataStore where
  stores : Table ℕ Store
  storeStates : Table ℕ StoreState
  regions : Table ℕ Region
  leaders : Table ℕ Peer

namespace MetadataStore

def empty : MetadataStore := ⟨.empty, .empty, .empty, .empty⟩

/-- A report with an older epoch than that of the stored region. -/
def stale (existing region : Region) : Prop :=
  existing.regionEpoch ≠ none ∧ region.regionEpoch ≠ none ∧
    (region.version < existing.version ∨ region.confVer < existing.confVer)

instance (existing region : Region) : Decidable (stale existing region) :=
  inferInstanceAs (Decidable (_ ∧ _))

/-- The report is discarded. -/
def discards (m : MetadataStore) (region : Region) : Prop :=
  ∃ existing, m.regions.get region.id = some existing ∧ stale existing region

instance (m : MetadataStore) (region : Region) : Decidable (m.discards region) :=
  match h : m.regions.get region.id with
  | none => isFalse (by simp [discards, h])
  | some existing => decidable_of_iff (stale existing region) (by simp [discards, h])

/-- `PutRegion`. -/
def putRegion (m : MetadataStore) : Option Region → Option Peer → MetadataStore
  | none, _ => m
  | some region, leader =>
    if m.discards region then m
    else
      { m with
        regions := m.regions.put region.id region
        leaders := leader.elim m.leaders (m.leaders.put region.id) }

/-- `GetRegionByKey`, with the regions in the order of the iteration. -/
def getRegionByKey (m : MetadataStore) (order : List (ℕ × Region)) (key : Key) :
    Option (Region × Option Peer) :=
  let encodedKey := encodeBytes key
  (order.find? fun p => p.2.contains encodedKey).map fun p => (p.2, m.leaders.get p.1)

theorem get_putRegion (m : MetadataStore) (region : Region) (leader : Option Peer) (id : ℕ) :
    (m.putRegion (some region) leader).regions.get id =
      if id = region.id ∧ ¬ m.discards region then some region else m.regions.get id := by
  rw [putRegion]
  by_cases h : m.discards region
  · simp [h]
  · rw [if_neg h]
    simp [Table.get_put, h]

/-- `GetStoreState`: a store without a record is up. -/
def getStoreState (m : MetadataStore) (storeID : ℕ) : StoreState :=
  (m.storeStates.get storeID).getD .up

/-- `IsStoreSchedulable`. -/
def isStoreSchedulable (m : MetadataStore) (storeID : ℕ) : Bool :=
  m.getStoreState storeID == .up

/-- `GetRegionCountPerStore`: the number of peers on a store. -/
def getRegionCountPerStore (m : MetadataStore) (storeID : ℕ) : ℕ :=
  (m.regions.toList.map fun p => p.2.peers.countP fun peer => peer.storeId == storeID).sum

def getLeaderCountPerStore (m : MetadataStore) (storeID : ℕ) : ℕ :=
  m.leaders.toList.countP fun p => p.2.storeId == storeID

end MetadataStore

end Metadata
