/-
The region that a request is for: `validateRegionContext` of `internal/server/server.go`
and the checks of `ProposeModifies` of `coordinator.go`.
-/
import Gookv.RawPlacement
import Gookv.RegionWrites

namespace RegionContext

open Txntypes Metapb Codec
open StoreRestart (Modify)
open RegionWrites (EpochMatches)
open RawPlacement (keyNotInRegion keyNotInRegion_eq_false)

structure Context where
  regionId : ℕ := 0
  regionEpoch : Option RegionEpoch := none
  deriving DecidableEq

/-- What the service sees of a peer; `leaderPeer` is the leader that it knows of. -/
structure HostedPeer where
  region : Region
  isLeader : Bool := false
  leaderPeer : Option Peer := none
  deriving DecidableEq

inductive RegionError
  | regionNotFound (regionId : ℕ)
  | notLeader (regionId : ℕ) (leader : Option Peer)
  | epochNotMatch (currentRegions : List Region)
  | keyNotInRegion (key : Key) (regionId : ℕ) (startKey endKey : Key)
  deriving DecidableEq

def present (key : Key) : Option Key := if key = [] then none else some key

def getPeer (peers : List HostedPeer) (regionID : ℕ) : Option HostedPeer :=
  peers.find? fun p => p.region.id = regionID

def validateRegionContext (peers : List HostedPeer) (reqCtx : Option Context)
    (key : Option Key) : Option RegionError :=
  let ctx := reqCtx.getD {}
  if ctx.regionId = 0 then none
  else
    match getPeer peers ctx.regionId with
    | none => some (.regionNotFound ctx.regionId)
    | some peer =>
      if peer.isLeader = false then some (.notLeader ctx.regionId peer.leaderPeer)
      else if ¬ EpochMatches ctx.regionEpoch peer.region.regionEpoch then
        some (.epochNotMatch [peer.region])
      else
        match key with
        | none => none
        | some key =>
          if keyNotInRegion peer.region key then
            some (.keyNotInRegion key ctx.regionId peer.region.startKey peer.region.endKey)
          else none

def proposeCheck (peers : List HostedPeer) (regionID : ℕ) : Option RegionError :=
  match getPeer peers regionID with
  | none => some (.regionNotFound regionID)
  | some peer => if peer.isLeader then none else some (.notLeader regionID none)

end RegionContext
