/-
The storage of a Raft log: `internal/raftstore/storage.go`, `raft_log_writer.go`, and
PD's copy of it, `internal/pd/raft_storage.go`.
-/
import Gookv.Table
import Gookv.RaftEntry

namespace Raftstore

structure HardState where
  term : ℕ := 0
  vote : ℕ := 0
  commit : ℕ := 0
  deriving DecidableEq

structure RaftDisk where
  hardState : Option HardState := none
  log : Table ℕ Entry := Table.empty
  applyState : Option ApplyState := none

abbrev RaftCF := ℕ → RaftDisk

inductive WriteOp
  | hardState (regionID : ℕ) (hs : HardState)
  | entry (regionID : ℕ) (e : Entry)
  deriving DecidableEq

def WriteOp.regionID : WriteOp → ℕ
  | hardState r _ => r
  | entry r _ => r

def RaftDisk.put (disk : RaftDisk) : WriteOp → RaftDisk
  | .hardState _ hs => { disk with hardState := some hs }
  | .entry _ e => { disk with log := disk.log.put e.index e }

def commitBatch (cf : RaftCF) (ops : List WriteOp) : RaftCF :=
  ops.foldl (fun cf op => Function.update cf op.regionID ((cf op.regionID).put op)) cf

structure Ready where
  hardState : HardState := {}
  entries : List Entry := []
  deriving DecidableEq

/-- `PeerStorage`, and `PDRaftStorage`, which has the same fields. -/
structure PeerStorage where
  hardState : HardState
  applyState : ApplyState
  entries : List Entry
  persistedLastIndex : ℕ
  deriving DecidableEq

def raftInitLogTerm : ℕ := 5

def raftInitLogIndex : ℕ := 5

def maxCacheSize : ℕ := 1024

def readyOps (regionID : ℕ) (rd : Ready) : List WriteOp :=
  (if rd.hardState = {} then [] else [.hardState regionID rd.hardState]) ++
    rd.entries.map (.entry regionID)

def appendToCache (cache es : List Entry) : List Entry :=
  match cache, es with
  | [], _ => es
  | _ :: _, [] => cache
  | c :: _, e :: _ =>
    let kept := if e.index ≤ c.index then es else cache.take (e.index - c.index) ++ es
    kept.drop (kept.length - maxCacheSize)

namespace PeerStorage

def new : PeerStorage where
  hardState := {}
  applyState := ⟨raftInitLogIndex, raftInitLogIndex, raftInitLogTerm⟩
  entries := []
  persistedLastIndex := raftInitLogIndex

def bootstrap : PeerStorage where
  hardState := {}
  applyState := ⟨0, 0, 0⟩
  entries := [⟨.normal, 0, 0, []⟩]
  persistedLastIndex := 0

def postPersist (s : PeerStorage) (hs : HardState) (es : List Entry) : PeerStorage :=
  { s with
    hardState := if hs = {} then s.hardState else hs
    entries := if es = [] then s.entries else appendToCache s.entries es
    persistedLastIndex :=
      match es.getLast? with
      | none => s.persistedLastIndex
      | some e => max s.persistedLastIndex e.index }

def saveReady (s : PeerStorage) (regionID : ℕ) (cf : RaftCF) (rd : Ready) :
    RaftCF × PeerStorage :=
  (commitBatch cf (readyOps regionID rd), s.postPersist rd.hardState rd.entries)

end PeerStorage

structure WriteTask where
  regionID : ℕ
  ops : List WriteOp
  entries : List Entry
  hardState : Option HardState
  deriving DecidableEq

def buildWriteTask (regionID : ℕ) (rd : Ready) : WriteTask where
  regionID
  ops := readyOps regionID rd
  entries := rd.entries
  hardState := if rd.hardState = {} then none else some rd.hardState

def processBatch (cf : RaftCF) (tasks : List WriteTask) : RaftCF :=
  commitBatch cf (tasks.flatMap WriteTask.ops)

def PeerStorage.applyWriteTaskPostPersist (s : PeerStorage) (task : WriteTask) : PeerStorage :=
  s.postPersist (task.hardState.getD {}) task.entries

/-- The part of `RecoverFromEngine` that both storages have. -/
def PeerStorage.recoverLog (s : PeerStorage) (disk : RaftDisk) : PeerStorage :=
  let entries := disk.log.toList.map Prod.snd
  let lastIdx : ℕ := entries.foldl (fun m e => max m e.index) 0
  let s := { s with hardState := disk.hardState.getD s.hardState }
  if 0 < lastIdx then
    { s with
      persistedLastIndex := lastIdx
      entries := entries.drop (entries.length - maxCacheSize) }
  else s

def PeerStorage.recoverFromEngine (disk : RaftDisk) : PeerStorage :=
  let s := PeerStorage.new.recoverLog disk
  { s with applyState := disk.applyState.getD s.applyState }

namespace PDRaftStorage

def new : PeerStorage := ⟨{}, ⟨0, 0, 0⟩, [], 0⟩

def recoverFromEngine (disk : RaftDisk) : PeerStorage := new.recoverLog disk

end PDRaftStorage

/-! ### Reads -/

inductive StorageError
  | invalidRange (lo hi : ℕ)
  | compacted
  | unavailable
  | entryGap (index : ℕ)
  deriving DecidableEq

def readEntriesLoop (disk : RaftDisk) : ℕ → ℕ → Except StorageError (List Entry)
  | _, 0 => .ok []
  | idx, n + 1 =>
    match disk.log.get idx with
    | none => .error (.entryGap idx)
    | some e => (readEntriesLoop disk (idx + 1) n).map (e :: ·)

def readEntriesFromEngine (disk : RaftDisk) (lo hi : ℕ) : Except StorageError (List Entry) :=
  if disk.log.get lo = none then .ok [] else readEntriesLoop disk lo (hi - lo)

def PDRaftStorage.readEntriesLoop (disk : RaftDisk) : ℕ → ℕ → List Entry
  | _, 0 => []
  | idx, n + 1 =>
    match disk.log.get idx with
    | none => []
    | some e => e :: PDRaftStorage.readEntriesLoop disk (idx + 1) n

def PDRaftStorage.readEntriesFromEngine (disk : RaftDisk) (lo hi : ℕ) :
    Except StorageError (List Entry) :=
  .ok (PDRaftStorage.readEntriesLoop disk lo (hi - lo))

def limitSizeLoop (size : Entry → ℕ) (maxSize : ℕ) : ℕ → List Entry → List Entry
  | _, [] => []
  | total, e :: es =>
    if maxSize < total + size e then [] else e :: limitSizeLoop size maxSize (total + size e) es

/-- An initial part of total size at most `maxSize`, at least one; all when it is 0. -/
def limitSize (size : Entry → ℕ) (maxSize : ℕ) (es : List Entry) : List Entry :=
  if maxSize = 0 then es
  else
    match es with
    | [] => []
    | e :: es => e :: limitSizeLoop size maxSize (size e) es

namespace PeerStorage

def firstIndex (s : PeerStorage) : ℕ := s.applyState.truncatedIndex + 1

def lastIndex (s : PeerStorage) : ℕ :=
  match s.entries.getLast? with
  | some e => e.index
  | none => s.persistedLastIndex

def cached (s : PeerStorage) (lo hi : ℕ) : Option (List Entry) :=
  match s.entries.head?, s.entries.getLast? with
  | some first, some last =>
    if first.index ≤ lo ∧ hi ≤ last.index + 1 then
      some ((s.entries.drop (lo - first.index)).take (hi - lo))
    else none
  | _, _ => none

def entriesWith (read : ℕ → ℕ → Except StorageError (List Entry)) (size : Entry → ℕ)
    (s : PeerStorage) (lo hi maxSize : ℕ) : Except StorageError (List Entry) :=
  if hi < lo then .error (.invalidRange lo hi)
  else if lo < s.firstIndex then .error .compacted
  else if s.lastIndex + 1 < hi then .error .unavailable
  else
    match s.cached lo hi with
    | some es => .ok (limitSize size maxSize es)
    | none => (read lo hi).map (limitSize size maxSize)

def entriesIn (size : Entry → ℕ) (disk : RaftDisk) (s : PeerStorage) (lo hi maxSize : ℕ) :
    Except StorageError (List Entry) :=
  s.entriesWith (readEntriesFromEngine disk) size lo hi maxSize

def term (disk : RaftDisk) (s : PeerStorage) (i : ℕ) : Except StorageError ℕ :=
  if i = s.applyState.truncatedIndex then .ok s.applyState.truncatedTerm
  else if i < s.firstIndex then .error .compacted
  else if s.lastIndex < i then .error .unavailable
  else
    match s.cached i (i + 1) with
    | some (e :: _) => .ok e.term
    | _ =>
      match readEntriesFromEngine disk i (i + 1) with
      | .error err => .error err
      | .ok [] => .error .unavailable
      | .ok (e :: _) => .ok e.term

def compactTo (s : PeerStorage) (index : ℕ) : PeerStorage :=
  match s.entries.head? with
  | none => s
  | some first =>
    if index ≤ first.index then s else { s with entries := s.entries.drop (index - first.index) }

def setApplyState (s : PeerStorage) (state : ApplyState) : PeerStorage :=
  { s with applyState := state }

end PeerStorage

def RaftDisk.persistApplyState (disk : RaftDisk) (state : ApplyState) : RaftDisk :=
  { disk with applyState := some state }

def RaftDisk.gcRaftLog (disk : RaftDisk) (startIdx endIdx : ℕ) : RaftDisk :=
  if endIdx ≤ startIdx then disk
  else { disk with log := disk.log.deleteRange startIdx endIdx }

end Raftstore
