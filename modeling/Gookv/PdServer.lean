/-
The placement driver: its commands, its Raft log on disk, and how it restarts.
-/
import Gookv.RaftEntry

namespace Pd

open Raftstore

/-! ### The state machine -/

structure Peer where
  id : ℕ
  storeId : ℕ
  deriving DecidableEq

structure RegionEpoch where
  confVer : ℕ
  version : ℕ
  deriving DecidableEq

structure Region where
  id : ℕ
  regionEpoch : Option RegionEpoch
  rest : List UInt8
  deriving DecidableEq

structure Store where
  id : ℕ
  rest : List UInt8
  deriving DecidableEq

@[ext]
structure State where
  bootstrapped : Bool
  stores : ℕ → Option Store
  regions : ℕ → Option Region
  leaders : ℕ → Option Peer
  nextID : ℕ
  safePoint : ℕ

def State.initial : State where
  bootstrapped := false
  stores _ := none
  regions _ := none
  leaders _ := none
  nextID := 1000
  safePoint := 0

/-- `PDCommand`; `untracked` stands for the commands of other parts of the memory. -/
inductive Command
  | setBootstrapped (bootstrapped : Option Bool) (store : Option Store)
      (region : Option Region) (leader : Option Peer)
  | putStore (store : Option Store)
  | putRegion (region : Option Region) (leader : Option Peer)
  | idAlloc (batchSize : ℤ)
  | updateGCSafePoint (safePoint : ℕ)
  | compactLog (compactIndex compactTerm : ℕ)
  | untracked
  deriving DecidableEq

def State.putStore (s : State) : Option Store → State
  | none => s
  | some store => { s with stores := fun id => if id = store.id then some store else s.stores id }

def stale (stored incoming : Region) : Bool :=
  match stored.regionEpoch, incoming.regionEpoch with
  | some storedEpoch, some incomingEpoch =>
    incomingEpoch.version < storedEpoch.version || incomingEpoch.confVer < storedEpoch.confVer
  | _, _ => false

def State.putRegion (s : State) : Option Region → Option Peer → State
  | none, _ => s
  | some region, leader =>
    if (s.regions region.id).any fun existing => stale existing region then s
    else
      { s with
        regions := fun id => if id = region.id then some region else s.regions id
        leaders := fun id => if id = region.id then leader.or (s.leaders id) else s.leaders id }

def batchOf (batchSize : ℤ) : ℕ := if batchSize ≤ 0 then 1 else batchSize.toNat

def State.apply (s : State) : Command → Except String State
  | .setBootstrapped none _ _ _ =>
    .error "applyCommand: CmdSetBootstrapped: Bootstrapped field is nil"
  | .setBootstrapped (some b) store region leader =>
    .ok (({ s with bootstrapped := b }.putStore store).putRegion region leader)
  | .putStore store => .ok (s.putStore store)
  | .putRegion region leader => .ok (s.putRegion region leader)
  | .idAlloc batchSize => .ok { s with nextID := s.nextID + batchOf batchSize }
  | .updateGCSafePoint safePoint =>
    .ok { s with safePoint := if s.safePoint < safePoint then safePoint else s.safePoint }
  | .compactLog _ _ => .ok s
  | .untracked => .ok s

abbrev Entry := Option Command

def State.applyEntry (s : State) : Entry → State
  | none => s
  | some cmd =>
    match s.apply cmd with
    | .ok s' => s'
    | .error _ => s

def State.applyAll (s : State) (es : List Entry) : State := es.foldl State.applyEntry s

structure Disk where
  entries : List Entry
  deleted : ℕ

def Disk.get (d : Disk) (idx : ℕ) : Option Entry :=
  if d.deleted < idx then d.entries[idx - 1]? else none

def Disk.deleteEntriesTo (d : Disk) (endIdx : ℕ) : Disk :=
  if endIdx ≤ 1 then d else { d with deleted := max d.deleted (endIdx - 1) }

def Disk.readEntries (d : Disk) : ℕ → ℕ → List Entry
  | _, 0 => []
  | lo, n + 1 =>
    match d.get lo with
    | none => []
    | some e => e :: d.readEntries (lo + 1) n

structure RaftStorage where
  engine : Disk
  applyState : ApplyState
  cacheFirst : ℕ
  entries : List Entry
  persistedLastIndex : ℕ

def maxCacheSize : ℕ := 1024

def RaftStorage.recoverFromEngine (engine : Disk) : RaftStorage :=
  let scanned := engine.entries.drop engine.deleted
  let extra := scanned.length - maxCacheSize
  { engine
    applyState := ⟨0, 0, 0⟩
    cacheFirst := engine.deleted + extra + 1
    entries := scanned.drop extra
    persistedLastIndex := if scanned = [] then 0 else engine.entries.length }

namespace RaftStorage

def firstIndex (s : RaftStorage) : ℕ := s.applyState.truncatedIndex + 1

def lastIndex (s : RaftStorage) : ℕ :=
  if s.entries = [] then s.persistedLastIndex else s.cacheFirst + s.entries.length - 1

inductive Error
  | invalidRange (lo hi : ℕ)
  | compacted
  | unavailable
  deriving DecidableEq

def entriesIn (s : RaftStorage) (lo hi : ℕ) : Except Error (List Entry) :=
  if hi < lo then .error (.invalidRange lo hi)
  else if lo < s.firstIndex then .error .compacted
  else if s.lastIndex + 1 < hi then .error .unavailable
  else if s.entries ≠ [] ∧ s.cacheFirst ≤ lo ∧ hi ≤ s.cacheFirst + s.entries.length then
    .ok ((s.entries.drop (lo - s.cacheFirst)).take (hi - lo))
  else .ok (s.engine.readEntries lo (hi - lo))

def compactTo (s : RaftStorage) (index : ℕ) : RaftStorage :=
  if s.entries = [] then s
  else if index ≤ s.cacheFirst then s
  else
    { s with
      cacheFirst := index
      entries := s.entries.drop (index - s.cacheFirst) }

end RaftStorage

structure Server where
  state : State
  storage : RaftStorage
  background : List ℕ

namespace Server

def compactLog (s : Server) (compactIndex compactTerm : ℕ) : Server :=
  let as := s.storage.applyState
  if compactIndex ≤ as.truncatedIndex then s
  else
    { s with
      storage :=
        { s.storage with
          applyState :=
            { as with truncatedIndex := compactIndex, truncatedTerm := compactTerm }
        }.compactTo (compactIndex + 1)
      background := s.background ++ [compactIndex + 1] }

def applyEntry (s : Server) (e : Entry) : Server :=
  match e with
  | some (.compactLog index term) => s.compactLog index term
  | _ => { s with state := s.state.applyEntry e }

def replayRaftLog (s : Server) : Except RaftStorage.Error Server :=
  let as := s.storage.applyState
  let lastIndex := s.storage.lastIndex
  if lastIndex ≤ as.appliedIndex then .ok s
  else
    match s.storage.entriesIn (as.appliedIndex + 1) (lastIndex + 1) with
    | .error err => .error err
    | .ok es =>
      let s' := es.foldl applyEntry s
      .ok { s' with
        storage := { s'.storage with applyState := { as with appliedIndex := lastIndex } } }

def runDeletions (s : Server) (ran : List ℕ) : Server :=
  { s with
    storage := { s.storage with engine := ran.foldl Disk.deleteEntriesTo s.storage.engine } }

/-- The RawNode hands out the committed entries from the first index on. -/
def redeliver (s : Server) (commit : ℕ) : Server :=
  if s.storage.firstIndex ≤ commit then
    match s.storage.entriesIn s.storage.firstIndex (commit + 1) with
    | .error _ => s
    | .ok es => es.foldl applyEntry s
  else s

end Server

structure Persisted where
  committed : List Entry
  tail : List Entry
  deleted : ℕ
  deleted_ok : deleted = 0 ∨ ∃ before term after,
    committed = before ++ some (.compactLog deleted term) :: after ∧ deleted ≤ before.length

namespace Persisted

def disk (p : Persisted) : Disk := ⟨p.committed ++ p.tail, p.deleted⟩

def boot (p : Persisted) : Except RaftStorage.Error Server :=
  Server.replayRaftLog ⟨.initial, .recoverFromEngine p.disk, []⟩

def committedState (p : Persisted) : State := State.initial.applyAll p.committed

end Persisted

end Pd
