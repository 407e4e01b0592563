/-
Timestamps, locks and write records (`pkg/txntypes`).
-/
import Mathlib

instance instLinearOrderUInt64 : LinearOrder UInt64 where
  le_refl := UInt64.le_refl
  le_trans _ _ _ := UInt64.le_trans
  le_antisymm _ _ := UInt64.le_antisymm
  le_total := UInt64.le_total
  lt_iff_le_not_ge a b := by
    rw [UInt64.not_le]
    exact ⟨fun h => ⟨UInt64.le_of_lt h, h⟩, fun h => h.2⟩
  toDecidableLE := inferInstance
  toDecidableLT := inferInstance
  toDecidableEq := inferInstance

instance instLinearOrderUInt8 : LinearOrder UInt8 where
  le_refl := UInt8.le_refl
  le_trans _ _ _ := UInt8.le_trans
  le_antisymm _ _ := UInt8.le_antisymm
  le_total := UInt8.le_total
  lt_iff_le_not_ge a b := by
    rw [UInt8.not_le]
    exact ⟨fun h => ⟨UInt8.le_of_lt h, h⟩, fun h => h.2⟩
  toDecidableLE := inferInstance
  toDecidableLT := inferInstance
  toDecidableEq := inferInstance

namespace Txntypes

abbrev Key := List UInt8

abbrev Value := List UInt8

/-- A hybrid logical clock value from the timestamp oracle. -/
abbrev TimeStamp := UInt64

-- membership in a list of keys or of timestamps is decided through their equality tests
instance instLawfulBEqKey : LawfulBEq Key := inferInstance

instance instLawfulBEqTimeStamp : LawfulBEq TimeStamp := inferInstance

def tsLogicalBits : UInt64 := 18

/-- The largest timestamp. -/
def tsMax : TimeStamp := 0xFFFFFFFFFFFFFFFF

def physical (ts : TimeStamp) : UInt64 := ts >>> tsLogicalBits

def prev (ts : TimeStamp) : TimeStamp := if ts = 0 then 0 else ts - 1

theorem le_tsMax (ts : TimeStamp) : ts ≤ tsMax := by
  rw [UInt64.le_iff_toNat_le]
  have h := ts.toNat_lt
  have h' : tsMax.toNat = 2 ^ 64 - 1 := rfl
  omega

theorem le_prev_iff {a b : TimeStamp} (hb : b ≠ 0) : a ≤ prev b ↔ a < b := by
  rw [prev, if_neg hb]
  grind

/-- The type of a lock. -/
inductive LockType
  | put
  | delete
  | lock
  | pessimistic
  deriving DecidableEq

/-- The type of a write record. -/
inductive WriteType
  | put
  | delete
  | lock
  | rollback
  deriving DecidableEq

/-- Values up to this length are kept inside the lock and write records. -/
def shortValueMaxLen : ℕ := 255

/-- A transaction lock on a user key: the fields that are written or read. -/
structure Lock where
  lockType : LockType
  primary : Key
  startTS : TimeStamp
  ttl : UInt64
  shortValue : Option Value := none
  forUpdateTS : TimeStamp := 0
  minCommitTS : TimeStamp := 0
  useAsyncCommit : Bool := false
  secondaries : List Key := []
  deriving DecidableEq

/-- Where the previous data-changing version of a key is. -/
structure LastChange where
  ts : TimeStamp := 0
  estimatedVersions : ℕ := 0
  deriving DecidableEq

/-- A committed or rolled back version of a user key. -/
structure Write where
  writeType : WriteType
  startTS : TimeStamp
  shortValue : Option Value := none
  lastChange : LastChange := {}
  deriving DecidableEq

/-- `UnmarshalLock` of `Marshal`: a short value is written only when it is not empty. -/
def Lock.reload (l : Lock) : Lock :=
  { l with shortValue := l.shortValue.filter (· ≠ []) }

/-- `UnmarshalWrite` of `Marshal`. -/
def Write.reload (w : Write) : Write :=
  { w with shortValue := w.shortValue.filter (· ≠ []) }

@[simp] theorem Lock.reload_lockType (l : Lock) : l.reload.lockType = l.lockType := rfl
@[simp] theorem Lock.reload_primary (l : Lock) : l.reload.primary = l.primary := rfl
@[simp] theorem Lock.reload_startTS (l : Lock) : l.reload.startTS = l.startTS := rfl
@[simp] theorem Lock.reload_forUpdateTS (l : Lock) : l.reload.forUpdateTS = l.forUpdateTS := rfl
@[simp] theorem Write.reload_writeType (w : Write) : w.reload.writeType = w.writeType := rfl
@[simp] theorem Write.reload_startTS (w : Write) : w.reload.startTS = w.startTS := rfl
@[simp] theorem Write.reload_lastChange (w : Write) : w.reload.lastChange = w.lastChange := rfl

/-- The record is a Put or a Delete. -/
def Write.isDataChanged (w : Write) : Bool :=
  w.writeType = .put ∨ w.writeType = .delete

@[simp] theorem Write.isDataChanged_reload (w : Write) :
    w.reload.isDataChanged = w.isDataChanged := rfl

theorem Write.isDataChanged_iff {w : Write} :
    w.isDataChanged = true ↔ w.writeType ≠ .rollback ∧ w.writeType ≠ .lock := by
  cases h : w.writeType <;> simp [isDataChanged, h]

end Txntypes
