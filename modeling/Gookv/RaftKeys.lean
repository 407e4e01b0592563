/-
The keys of the Raft family: `pkg/keys/keys.go`, and what `CleanupRegionData` and `gcRaftLog`
delete by ranges of them.

A key is a prefix of two bytes, the region and a suffix, and compares as these do: `key_lt`.
-/
import Gookv.Engine
import Gookv.KeyOrder
import Gookv.ScanSteps

namespace RaftKeys

open Txntypes Codec Proposals StoreRestart Rocks

def raftLogKey (regionID logIndex : UInt64) : Key :=
  0x01 :: 0x02 :: (putUint64 regionID ++ 0x01 :: putUint64 logIndex)

def raftStateKey (regionID : UInt64) : Key := 0x01 :: 0x02 :: (putUint64 regionID ++ [0x02])

def applyStateKey (regionID : UInt64) : Key := 0x01 :: 0x02 :: (putUint64 regionID ++ [0x03])

def regionStateKey (regionID : UInt64) : Key := 0x01 :: 0x03 :: (putUint64 regionID ++ [0x01])

def raftLogKeyRange (regionID : UInt64) : Key × Key := (raftLogKey regionID 0, raftStateKey regionID)

def nextKey (key : Key) : Key := key ++ [0]

def deleteRange (db : DB) (startKey endKey : Key) : DB :=
  applyModifies db [.deleteRange .raft startKey endKey]

def cleanupRegionData (db : DB) (regionID : UInt64) : DB :=
  let db := deleteRange db (raftLogKeyRange regionID).1 (raftLogKeyRange regionID).2
  let db := deleteRange db (raftStateKey regionID) (nextKey (raftStateKey regionID))
  let db := deleteRange db (applyStateKey regionID) (nextKey (applyStateKey regionID))
  deleteRange db (regionStateKey regionID) (nextKey (regionStateKey regionID))

def gcRaftLog (db : DB) (regionID startIdx endIdx : UInt64) : DB :=
  if endIdx ≤ startIdx then db
  else deleteRange db (raftLogKey regionID startIdx) (raftLogKey regionID endIdx)

/-! ### What is persisted under the keys -/

inductive Record
  | log (regionID index : UInt64)
  | raftState (regionID : UInt64)
  | applyState (regionID : UInt64)
  | regionState (regionID : UInt64)
  deriving DecidableEq

namespace Record

def regionID : Record → UInt64
  | log r _ => r
  | raftState r => r
  | applyState r => r
  | regionState r => r

def second : Record → UInt8
  | regionState _ => 0x03
  | _ => 0x02

def suffix : Record → Key
  | log _ i => 0x01 :: putUint64 i
  | raftState _ => [0x02]
  | applyState _ => [0x03]
  | regionState _ => [0x01]

def key : Record → Key
  | log r i => raftLogKey r i
  | raftState r => raftStateKey r
  | applyState r => applyStateKey r
  | regionState r => regionStateKey r

def inLog (r startIdx endIdx : UInt64) : Record → Prop
  | log r' i => r' = r ∧ startIdx ≤ i ∧ i < endIdx
  | _ => False

instance (r startIdx endIdx : UInt64) : (a : Record) → Decidable (a.inLog r startIdx endIdx)
  | log _ _ => inferInstanceAs (Decidable (_ ∧ _))
  | raftState _ => isFalse id
  | applyState _ => isFalse id
  | regionState _ => isFalse id

variable {a b : Record}

theorem key_eq (a : Record) : a.key = 0x01 :: a.second :: (putUint64 a.regionID ++ a.suffix) := by
  cases a <;> rfl

theorem putUint64_inj {v w : UInt64} (h : putUint64 v = putUint64 w) : v = w := by
  have hread := readFrom_putUint64 v
  rw [h, readFrom_putUint64] at hread
  exact UInt64.toNat_inj.mp hread.symm

theorem key_lt : a.key < b.key ↔ a.second < b.second ∨ a.second = b.second ∧
    (a.regionID < b.regionID ∨ a.regionID = b.regionID ∧ a.suffix < b.suffix) := by
  have hput : putUint64 a.regionID = putUint64 b.regionID ↔ a.regionID = b.regionID :=
    ⟨putUint64_inj, congrArg _⟩
  have hlen : (putUint64 a.regionID).length = (putUint64 b.regionID).length := rfl
  rw [key_eq, key_eq, List.cons_lt_cons_iff, List.cons_lt_cons_iff,
    OrderedCode.append_lt_of_length hlen, putUint64_lt, hput]
  simp

theorem key_injective : Function.Injective key := by
  intro a b h
  rw [key_eq, key_eq] at h
  obtain ⟨hsecond, h⟩ := List.cons.inj (List.cons.inj h).2
  obtain ⟨hput, hsuffix⟩ := List.append_inj h rfl
  have hregion := putUint64_inj hput
  cases a with
  | log r i =>
    cases b with
    | log r' j => rw [show r = r' from hregion, putUint64_inj (List.cons.inj hsuffix).2]
    | _ => cases hsuffix
  | raftState r =>
    cases b with
    | raftState r' => exact congrArg raftState hregion
    | _ => cases hsuffix
  | applyState r =>
    cases b with
    | applyState r' => exact congrArg applyState hregion
    | _ => cases hsuffix
  | regionState r =>
    cases b with
    | regionState r' => exact congrArg regionState hregion
    | _ => cases hsecond

variable {r i j : UInt64}

theorem key_lt_log : a.key < (log r i).key ↔
    a.second = 0x02 ∧ (a.regionID < r ∨ ∃ k < i, a = log r k) := by
  rw [key_lt]
  cases a with
  | log r' k => simp [second, suffix, regionID, putUint64_lt, and_comm]
  | _ => simp [second, suffix, regionID, List.cons_lt_cons_iff]

theorem key_lt_raftState : a.key < (raftState r).key ↔
    a.second = 0x02 ∧ (a.regionID < r ∨ ∃ k, a = log r k) := by
  rw [key_lt]
  cases a with
  | log r' k => simp [second, suffix, regionID, List.cons_lt_cons_iff]
  | _ => simp [second, suffix, regionID, List.cons_lt_cons_iff]

end Record

open Record

variable {db : DB} {cf : CF} {a : Record} {r startIdx endIdx : UInt64}

theorem get_deleteRange (db : DB) (startKey endKey : Key) (cf : CF) (key : Key) :
    get (deleteRange db startKey endKey) cf key =
      if cf = .raft ∧ ¬ key < startKey ∧ key < endKey then none else get db cf key := by
  rw [deleteRange, view_applyModifies]
  show ((Modify.deleteRange .raft startKey endKey).writeAt cf key).getD (get db cf key) = _
  simp only [Modify.writeAt, @eq_comm _ CF.raft cf]
  split <;> rfl

theorem between_nextKey {key k : Key} : ¬ k < key ∧ k < nextKey key ↔ k = key := by
  rw [nextKey, Mvcc.lt_append_zero_iff, not_lt, not_lt]
  exact ⟨fun h => le_antisymm h.2 h.1, fun h => ⟨h.ge, h.le⟩⟩

theorem between_logKeyRange : ¬ a.key < (raftLogKeyRange r).1 ∧ a.key < (raftLogKeyRange r).2 ↔
    ∃ i, a = .log r i := by
  have hstart : a.key < (raftLogKeyRange r).1 ↔ _ := key_lt_log (i := 0)
  have hend : a.key < (raftLogKeyRange r).2 ↔ _ := key_lt_raftState
  rw [hstart, hend]
  constructor
  · rintro ⟨hout, hsecond, hlt | hlog⟩
    · exact absurd ⟨hsecond, .inl hlt⟩ hout
    · exact hlog
  · rintro ⟨i, rfl⟩
    refine ⟨?_, rfl, .inr ⟨i, rfl⟩⟩
    rintro ⟨-, hlt | ⟨k, hk, -⟩⟩
    · exact lt_irrefl r hlt
    · exact absurd hk (by simp)

theorem between_logKeys : ¬ a.key < raftLogKey r startIdx ∧ a.key < raftLogKey r endIdx ↔
      ∃ i, a = .log r i ∧ startIdx ≤ i ∧ i < endIdx := by
  have hkey : ∀ i, a.key < raftLogKey r i ↔ _ := fun i => key_lt_log (i := i)
  rw [hkey, hkey]
  constructor
  · rintro ⟨hout, hsecond, hlt | ⟨i, hi, rfl⟩⟩
    · exact absurd ⟨hsecond, .inl hlt⟩ hout
    · exact ⟨i, rfl, not_lt.mp fun hlt => hout ⟨rfl, .inr ⟨i, hlt, rfl⟩⟩, hi⟩
  · rintro ⟨i, rfl, hle, hlt⟩
    refine ⟨?_, rfl, .inr ⟨i, hlt, rfl⟩⟩
    rintro ⟨-, hr | ⟨k, hk, heq⟩⟩
    · exact lt_irrefl r hr
    · cases heq
      exact absurd hk (not_lt.mpr hle)

theorem get_gcRaftLog : get (gcRaftLog db r startIdx endIdx) cf a.key =
    if cf = .raft ∧ a.inLog r startIdx endIdx then none else get db cf a.key := by
  have hin : a.inLog r startIdx endIdx ↔ ∃ i, a = .log r i ∧ startIdx ≤ i ∧ i < endIdx := by
    cases a <;> simp [inLog, and_assoc]
  rw [gcRaftLog]
  split
  · next hle =>
    rw [if_neg]
    rintro ⟨-, h⟩
    obtain ⟨i, -, hi, hi'⟩ := hin.mp h
    exact absurd (hle.trans hi) (not_le.mpr hi')
  · simp only [get_deleteRange, between_logKeys, hin]

theorem get_cleanupRegionData : get (cleanupRegionData db r) cf a.key =
    if cf = .raft ∧ a.regionID = r then none else get db cf a.key := by
  have hstate : a.key = raftStateKey r ↔ a = .raftState r := key_injective.eq_iff (b := .raftState r)
  have happly : a.key = applyStateKey r ↔ a = .applyState r :=
    key_injective.eq_iff (b := .applyState r)
  have hregion : a.key = regionStateKey r ↔ a = .regionState r :=
    key_injective.eq_iff (b := .regionState r)
  simp only [cleanupRegionData, get_deleteRange, between_nextKey, between_logKeyRange, hstate,
    happly, hregion]
  cases a <;> by_cases hcf : cf = .raft <;> simp [hcf, Record.regionID]

/-- **The Raft bookkeeping of a region is its own**: records have different keys, the range of
the log has the log keys of the region in the order of their indexes, and the two deletions
remove the records they are for and nothing else. -/
theorem regions_isolated : Function.Injective Record.key ∧
      (∀ r (a : Record), ¬ a.key < (raftLogKeyRange r).1 ∧ a.key < (raftLogKeyRange r).2 ↔
        ∃ i, a = .log r i) ∧
      (∀ r i j, raftLogKey r i < raftLogKey r j ↔ i < j) ∧
      ∀ db r cf (a : Record),
        (∀ startIdx endIdx, get (gcRaftLog db r startIdx endIdx) cf a.key =
          if cf = .raft ∧ a.inLog r startIdx endIdx then none else get db cf a.key) ∧
        get (cleanupRegionData db r) cf a.key =
          if cf = .raft ∧ a.regionID = r then none else get db cf a.key := by
  refine ⟨key_injective, fun r a => between_logKeyRange, fun r i j => ?_,
    fun db r cf a => ⟨fun startIdx endIdx => get_gcRaftLog, get_cleanupRegionData⟩⟩
  have hlog : (Record.log r i).key < (Record.log r j).key ↔ _ := key_lt_log
  refine hlog.trans ⟨?_, fun hij => ⟨rfl, .inr ⟨i, hij, rfl⟩⟩⟩
  rintro ⟨-, hr | ⟨k, hk, heq⟩⟩
  · exact absurd hr (lt_irrefl r)
  · cases heq
    exact hk

end RaftKeys
