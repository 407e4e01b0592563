/-
The column family operations of transactions and of the raw interface, as they reach
the engine: `internal/storage/mvcc/txn.go` and `internal/server/raw_storage.go`.
-/
import Gookv.Codec
import Gookv.Mvcc
import Gookv.StoreRestart

namespace StoreRestart

open Txntypes

def Modify.key : Modify → Key
  | .put _ key _ => key
  | .delete _ key => key
  | .deleteRange _ key _ => key

end StoreRestart

namespace Mvcc

open Txntypes StoreRestart

/-- `Lock.Marshal` and `Write.Marshal`. -/
structure Marshal where
  lock : Lock → Value
  write : Write → Value

/-- Which record of a user key an operation writes. -/
inductive Record
  | lock (key : Key)
  | value (key : Key) (startTS : TimeStamp)
  | write (key : Key) (commitTS : TimeStamp)
  deriving DecidableEq

def Record.cf : Record → CF
  | .lock _ => .lock
  | .value _ _ => .default
  | .write _ _ => .write

def Record.userKey : Record → Key
  | .lock key => key
  | .value key _ => key
  | .write key _ => key

/-- The key of a record in its column family. -/
def Record.encodedKey : Record → Key
  | .lock key => encodeLockKey key
  | .value key startTS => encodeKey key startTS
  | .write key commitTS => encodeKey key commitTS

def Modify.record : Mvcc.Modify → Record
  | .putLock key _ => .lock key
  | .unlockKey key => .lock key
  | .putValue key startTS _ => .value key startTS
  | .deleteValue key startTS => .value key startTS
  | .putWrite key commitTS _ => .write key commitTS
  | .deleteWrite key commitTS => .write key commitTS

/-- The operations of `MvccTxn` as they are handed to the engine. -/
def Modify.encoded (M : Marshal) : Mvcc.Modify → StoreRestart.Modify
  | .putLock key lock => .put .lock (encodeLockKey key) (M.lock lock)
  | .unlockKey key => .delete .lock (encodeLockKey key)
  | .putValue key startTS value => .put .default (encodeKey key startTS) value
  | .deleteValue key startTS => .delete .default (encodeKey key startTS)
  | .putWrite key commitTS write => .put .write (encodeKey key commitTS) (M.write write)
  | .deleteWrite key commitTS => .delete .write (encodeKey key commitTS)

theorem decodeKey_encoded (M : Marshal) (m : Mvcc.Modify) :
    ∃ ts, decodeKey (m.encoded M).key = .ok (m.key, ts) := by
  cases m with
  | putLock key lock | unlockKey key => exact ⟨0, decodeKey_encodeLockKey key⟩
  | putValue key startTS value | deleteValue key startTS =>
    exact ⟨startTS, decodeKey_encodeKey key startTS⟩
  | putWrite key commitTS write | deleteWrite key commitTS =>
    exact ⟨commitTS, decodeKey_encodeKey key commitTS⟩

theorem encodeKey_inj {key key' : Key} {ts ts' : TimeStamp}
    (h : encodeKey key ts = encodeKey key' ts') : key = key' ∧ ts = ts' := by
  have hdecode := congrArg decodeKey h
  rw [decodeKey_encodeKey, decodeKey_encodeKey] at hdecode
  cases hdecode
  exact ⟨rfl, rfl⟩

theorem Record.ext_encodedKey {rec rec' : Record} (hcf : rec.cf = rec'.cf)
    (hkey : rec.encodedKey = rec'.encodedKey) : rec = rec' := by
  cases rec <;> cases rec' <;> cases hcf
  · have hdecode := congrArg decodeKey hkey
    rw [Record.encodedKey, Record.encodedKey, decodeKey_encodeLockKey, decodeKey_encodeLockKey]
      at hdecode
    cases hdecode
    rfl
  · obtain ⟨rfl, rfl⟩ := encodeKey_inj hkey
    rfl
  · obtain ⟨rfl, rfl⟩ := encodeKey_inj hkey
    rfl

theorem Modify.record_eq_of_writeAt {M : Marshal} {m : Mvcc.Modify} {rec : Record}
    (h : (m.encoded M).writeAt rec.cf rec.encodedKey ≠ none) : m.record = rec := by
  have hat : m.record.cf = rec.cf ∧ m.record.encodedKey = rec.encodedKey := by
    by_contra hne
    cases m <;> exact h (if_neg hne)
  exact Record.ext_encodedKey hat.1 hat.2

end Mvcc

namespace RawStorage

open Txntypes StoreRestart Proposals

def resolveCF (cf : Option CF) : CF := cf.getD .default

def ttlFlagByte : UInt8 := 0x01

/-- `encodeValueWithTTL`, at the time `now` in seconds. -/
def encodeValueWithTTL (now : UInt64) (value : Value) (ttl : UInt64) : Value :=
  if ttl = 0 then value else value ++ putUint64 (now + ttl) ++ [ttlFlagByte]

def putModify (now : UInt64) (cf : Option CF) (key : Key) (value : Value) (ttl : Option UInt64) :
    Modify :=
  .put (resolveCF cf) key (encodeValueWithTTL now value (ttl.getD 0))

def deleteModify (cf : Option CF) (key : Key) : Modify := .delete (resolveCF cf) key

end RawStorage
