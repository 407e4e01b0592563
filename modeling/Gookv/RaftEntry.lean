/-
The entries of a region's Raft log, as `internal/raftstore` reads them.
-/
import Mathlib

namespace Raftstore

inductive EntryType
  | normal
  | confChange
  | confChangeV2
  deriving DecidableEq

structure Entry where
  entryType : EntryType
  term : ℕ
  index : ℕ
  data : List UInt8
  deriving DecidableEq

def tagSplitAdmin : UInt8 := 0x02

def tagCompactLog : UInt8 := 0x01

def isSplitAdmin (data : List UInt8) : Bool := data.head? == some tagSplitAdmin

def isCompactLog (data : List UInt8) : Bool := data.head? == some tagCompactLog

def Entry.isData (e : Entry) : Bool :=
  e.entryType == .normal && !isSplitAdmin e.data && !isCompactLog e.data && 8 < e.data.length

def bigEndian (data : List UInt8) : ℕ :=
  (data.take 8).foldl (fun n b => n * 256 + b.toNat) 0

structure CompactLogRequest where
  compactIndex : ℕ
  compactTerm : ℕ
  deriving DecidableEq

def unmarshalCompactLogRequest (data : List UInt8) : Option CompactLogRequest :=
  if data.length < 17 ∨ isCompactLog data = false then none
  else some ⟨bigEndian (data.drop 1), bigEndian (data.drop 9)⟩

structure ApplyState where
  appliedIndex : ℕ
  truncatedIndex : ℕ
  truncatedTerm : ℕ
  deriving DecidableEq

def execCompactLog (st : ApplyState) (req : CompactLogRequest) :
    Except String (Option ApplyState) :=
  if req.compactIndex ≤ st.truncatedIndex then .ok none
  else if req.compactTerm = 0 then .error "raftstore: compact term is zero"
  else if st.appliedIndex < req.compactIndex then
    .error s!"raftstore: compact index {req.compactIndex} > applied index {st.appliedIndex}"
  else .ok (some ⟨st.appliedIndex, req.compactIndex, req.compactTerm⟩)

def applyCompactLogEntry (st : ApplyState) (e : Entry) : ApplyState :=
  match unmarshalCompactLogRequest e.data with
  | none => st
  | some req =>
    match execCompactLog st req with
    | .ok (some st') => st'
    | _ => st

/-- The loop of `handleReady` over admin entries. -/
def applyAdminEntry (st : ApplyState) (e : Entry) : ApplyState :=
  if e.entryType = .normal ∧ isSplitAdmin e.data = false ∧ isCompactLog e.data = true then
    applyCompactLogEntry st e
  else st

theorem execCompactLog_ok {st st' : ApplyState} {req : CompactLogRequest}
    (h : execCompactLog st req = .ok (some st')) :
    st'.appliedIndex = st.appliedIndex ∧ st'.truncatedIndex ≤ st.appliedIndex := by
  unfold execCompactLog at h
  split at h
  · cases h
  · split at h
    · cases h
    · split at h
      · cases h
      · rename_i hle
        cases h
        exact ⟨rfl, by simpa using hle⟩

theorem applyCompactLogEntry_truncatedIndex (st : ApplyState) (e : Entry) :
    (applyCompactLogEntry st e).appliedIndex = st.appliedIndex ∧
      ((applyCompactLogEntry st e).truncatedIndex = st.truncatedIndex ∨
        (applyCompactLogEntry st e).truncatedIndex ≤ st.appliedIndex) := by
  unfold applyCompactLogEntry
  split
  · exact ⟨rfl, .inl rfl⟩
  · split
    · rename_i hexec
      obtain ⟨happlied, htrunc⟩ := execCompactLog_ok hexec
      exact ⟨happlied, .inr htrunc⟩
    · exact ⟨rfl, .inl rfl⟩

theorem applyAdminEntry_truncatedIndex (st : ApplyState) (e : Entry) :
    (applyAdminEntry st e).appliedIndex = st.appliedIndex ∧
      ((applyAdminEntry st e).truncatedIndex = st.truncatedIndex ∨
        (applyAdminEntry st e).truncatedIndex ≤ st.appliedIndex) := by
  unfold applyAdminEntry
  split
  · exact applyCompactLogEntry_truncatedIndex st e
  · exact ⟨rfl, .inl rfl⟩

theorem applyAdminEntries_truncatedIndex (es : List Entry) (st : ApplyState) :
    (es.foldl applyAdminEntry st).appliedIndex = st.appliedIndex ∧
      ((es.foldl applyAdminEntry st).truncatedIndex = st.truncatedIndex ∨
        (es.foldl applyAdminEntry st).truncatedIndex ≤ st.appliedIndex) := by
  induction es generalizing st with
  | nil => exact ⟨rfl, .inl rfl⟩
  | cons e es ih =>
    obtain ⟨happlied, htrunc⟩ := applyAdminEntry_truncatedIndex st e
    obtain ⟨ihApplied, ihTrunc⟩ := ih (applyAdminEntry st e)
    rw [List.foldl_cons]
    refine ⟨ihApplied.trans happlied, ?_⟩
    rcases ihTrunc with heq | hle
    · rw [heq]
      exact htrunc
    · exact .inr (happlied ▸ hle)

end Raftstore
