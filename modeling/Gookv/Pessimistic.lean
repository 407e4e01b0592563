/-
Pessimistic locks (`internal/storage/txn/pessimistic.go`).

Such a lock is checked against `forUpdateTS`, and the prewrite turns it into a normal one.
-/
import Gookv.AsyncCommit

open Txntypes Mvcc

namespace Txn

structure PessimisticLockProps where
  startTS : TimeStamp
  forUpdateTS : TimeStamp
  primary : Key
  lockTTL : UInt64

def PessimisticLockProps.lock (props : PessimisticLockProps) : Lock where
  lockType := .pessimistic
  primary := props.primary
  startTS := props.startTS
  ttl := props.lockTTL
  forUpdateTS := props.forUpdateTS

def acquirePessimisticLock (snap : Store) (props : PessimisticLockProps) (key : Key) :
    Except TxnError (List Modify) :=
  match loadLock snap key with
  | some existingLock =>
    if existingLock.startTS = props.startTS then
      if existingLock.lockType = .pessimistic ∧ existingLock.forUpdateTS < props.forUpdateTS then
        .ok [.putLock key { existingLock with forUpdateTS := props.forUpdateTS }]
      else .ok []
    else .error .keyIsLocked
  | none =>
    if newestConflict snap key props.forUpdateTS then .error .writeConflict
    else .ok [.putLock key props.lock]

structure PessimisticPrewriteProps extends PrewriteProps where
  forUpdateTS : TimeStamp
  isPessimistic : Bool

def PessimisticPrewriteProps.pessimisticLock (props : PessimisticPrewriteProps)
    (m : Mutation) : Lock :=
  { props.toPrewriteProps.lock m with forUpdateTS := props.forUpdateTS }

def prewritePessimistic (snap : Store) (props : PessimisticPrewriteProps)
    (mutation : Mutation) : Except TxnError (List Modify) :=
  let writes : List Modify := .putLock mutation.key (props.pessimisticLock mutation) ::
    mutation.putLargeValue props.startTS
  match loadLock snap mutation.key with
  | some existingLock =>
    if existingLock.startTS ≠ props.startTS then .error .keyIsLocked
    else if existingLock.lockType ≠ .pessimistic then .ok []
    else .ok (.unlockKey mutation.key :: writes)
  | none =>
    if props.isPessimistic then .error .txnLockNotFound
    else if newestConflict snap mutation.key props.startTS then .error .writeConflict
    else .ok writes

/-- Remove a pessimistic lock of the transaction with this `forUpdateTS` (`0` matching all). -/
def pessimisticRollbackKey (snap : Store) (startTS forUpdateTS : TimeStamp) (key : Key) :
    List Modify :=
  match loadLock snap key with
  | none => []
  | some lock =>
    if lock.startTS ≠ startTS then []
    else if lock.lockType ≠ .pessimistic then []
    else if forUpdateTS ≠ 0 ∧ lock.forUpdateTS ≠ forUpdateTS then []
    else [.unlockKey key]

def pessimisticRollback (snap : Store) (keys : List Key) (startTS forUpdateTS : TimeStamp) :
    List Modify :=
  keys.flatMap (pessimisticRollbackKey snap startTS forUpdateTS)

variable {ms : List Modify} {s : Store}

theorem acquirePessimisticLock_ok {props : PessimisticLockProps} {k : Key}
    (h : acquirePessimisticLock s props k = .ok ms) :
    (∃ lock r', (s k).lock = some lock ∧ lock.startTS = props.startTS ∧
      Turns ms k (s k) r' ∧ r'.writes = (s k).writes ∧
      ∃ lock', r'.lock = some lock' ∧ lock'.startTS = props.startTS) ∨
    ((s k).lock = none ∧ conflictLoop s k props.forUpdateTS 1 tsMax = false ∧
      Turns ms k (s k) { s k with lock := some props.lock.reload }) := by
  unfold acquirePessimisticLock loadLock at h
  cases hl : (s k).lock with
  | some lock =>
    simp only [hl] at h
    split at h
    · rename_i ht
      split at h
      · obtain rfl := Except.ok.inj h
        refine Or.inl ⟨lock, _, rfl, ht, ⟨by simp [Modify.key], rfl⟩, rfl, _, rfl, ht⟩
      · obtain rfl := Except.ok.inj h
        exact Or.inl ⟨lock, s k, rfl, ht, Turns.nil _ _, rfl, lock, hl, ht⟩
    · cases h
  | none =>
    simp only [hl] at h
    split at h
    · cases h
    · rename_i hc
      obtain rfl := Except.ok.inj h
      refine Or.inr ⟨rfl, ?_, by simp [Modify.key], rfl⟩
      rw [← newestConflict_eq_conflictLoop]
      simpa using hc

theorem prewritePessimistic_ok {props : PessimisticPrewriteProps} {m : Mutation}
    (h : prewritePessimistic s props m = .ok ms) :
    (∃ lock r', (s m.key).lock = some lock ∧ lock.startTS = props.startTS ∧
      Turns ms m.key (s m.key) r' ∧ r'.writes = (s m.key).writes ∧
      ∃ lock', r'.lock = some lock' ∧ lock'.startTS = props.startTS) ∨
    ((s m.key).lock = none ∧ conflictLoop s m.key props.startTS 1 tsMax = false ∧
      Turns ms m.key (s m.key) (prewritten (s m.key) (props.pessimisticLock m) m)) := by
  have hkey : ∀ x ∈ Modify.putLock m.key (props.pessimisticLock m) ::
      m.putLargeValue props.startTS, x.key = m.key := by
    intro x hx
    rcases List.mem_cons.mp hx with rfl | hx
    · rfl
    · exact putLargeValue_key hx
  unfold prewritePessimistic loadLock at h
  cases hl : (s m.key).lock with
  | some lock =>
    simp only [hl] at h
    split at h
    · cases h
    · rename_i ht
      rw [not_not] at ht
      split at h
      · obtain rfl := Except.ok.inj h
        exact Or.inl ⟨lock, s m.key, rfl, ht, Turns.nil _ _, rfl, lock, hl, ht⟩
      · obtain rfl := Except.ok.inj h
        refine Or.inl ⟨lock, prewritten { s m.key with lock := none }
          (props.pessimisticLock m) m, rfl, ht, ⟨?_, rfl⟩, by simp, _,
          prewritten_lock _ _ _, rfl⟩
        intro x hx
        rcases List.mem_cons.mp hx with rfl | hx
        · rfl
        · exact hkey x hx
  | none =>
    simp only [hl] at h
    split at h
    · cases h
    · split at h
      · cases h
      · rename_i hc
        obtain rfl := Except.ok.inj h
        refine Or.inr ⟨rfl, ?_, hkey, rfl⟩
        rw [← newestConflict_eq_conflictLoop]
        simpa using hc

theorem pessimisticRollback_modifies {keys : List Key} {t fu : TimeStamp} {x : Modify}
    (hx : x ∈ pessimisticRollback s keys t fu) :
    ∃ k, x = .unlockKey k ∧ ∃ lock, (s k).lock = some lock ∧ lock.startTS = t ∧
      lock.lockType = .pessimistic := by
  obtain ⟨k, _, hk⟩ := List.mem_flatMap.mp hx
  unfold pessimisticRollbackKey loadLock at hk
  cases hl : (s k).lock with
  | none => simp [hl] at hk
  | some lock =>
    simp only [hl] at hk
    split at hk
    · cases hk
    · rename_i ht
      split at hk
      · cases hk
      · rename_i hp
        split at hk
        · cases hk
        · exact ⟨k, List.mem_singleton.mp hk, lock, hl, not_not.mp ht, not_not.mp hp⟩

end Txn
