/-
Async commit and one-phase commit (`internal/storage/txn/async_commit.go`).

The lock names its secondaries and a lower bound for the commit timestamp; a one-phase commit
writes the commit records at once.
-/
import Gookv.Actions

open Txntypes Mvcc

namespace Txn

structure AsyncCommitPrewriteProps extends PrewriteProps where
  useAsyncCommit : Bool
  secondaries : List Key := []
  maxCommitTS : TimeStamp := 0

/-- Above the start timestamp and the largest timestamp known to be handed out. -/
def minCommitTS (startTS maxCommitTS : TimeStamp) : TimeStamp :=
  if 0 < maxCommitTS ∧ startTS + 1 < maxCommitTS + 1 then maxCommitTS + 1 else startTS + 1

/-- The lock an async-commit prewrite of a mutation writes. -/
def AsyncCommitPrewriteProps.asyncLock (props : AsyncCommitPrewriteProps) (m : Mutation) :
    Lock :=
  if props.useAsyncCommit then
    { props.toPrewriteProps.lock m with
      useAsyncCommit := true
      secondaries := if props.isPrimary then props.secondaries else []
      minCommitTS := minCommitTS props.startTS props.maxCommitTS }
  else props.toPrewriteProps.lock m

/-- `PrewriteAsyncCommit`: the first phase of an async commit on a key. -/
def prewriteAsyncCommit (snap : Store) (props : AsyncCommitPrewriteProps)
    (mutation : Mutation) : Except TxnError (List Modify) :=
  match loadLock snap mutation.key with
  | some existingLock =>
    if existingLock.startTS = props.startTS then .ok [] else .error .keyIsLocked
  | none =>
    if conflictLoop snap mutation.key props.startTS conflictBound tsMax then
      .error .writeConflict
    else
      .ok (.putLock mutation.key (props.asyncLock mutation) ::
        mutation.putLargeValue props.startTS)

open AsyncCommitPrewriteProps

@[simp] theorem asyncLock_startTS (props : AsyncCommitPrewriteProps) (m : Mutation) :
    (props.asyncLock m).startTS = props.startTS := by
  unfold asyncLock
  split <;> rfl

@[simp] theorem asyncLock_primary (props : AsyncCommitPrewriteProps) (m : Mutation) :
    (props.asyncLock m).primary = props.primary := by
  unfold asyncLock
  split <;> rfl

@[simp] theorem asyncLock_lockType (props : AsyncCommitPrewriteProps) (m : Mutation) :
    (props.asyncLock m).lockType = mutationOpToLockType m.op := by
  unfold asyncLock
  split <;> rfl

@[simp] theorem asyncLock_shortValue (props : AsyncCommitPrewriteProps) (m : Mutation) :
    (props.asyncLock m).shortValue = m.shortValue := by
  unfold asyncLock
  split <;> rfl

variable {m : Mutation}

theorem prewriteAsyncCommit_ok {s : Store} {props : AsyncCommitPrewriteProps}
    {ms : List Modify} (h : prewriteAsyncCommit s props m = .ok ms) :
    (∃ lock, (s m.key).lock = some lock ∧ lock.startTS = props.startTS ∧ ms = []) ∨
    ((s m.key).lock = none ∧ conflictLoop s m.key props.startTS conflictBound tsMax = false ∧
      Turns ms m.key (s m.key) (prewritten (s m.key) (props.asyncLock m) m)) := by
  unfold prewriteAsyncCommit loadLock at h
  cases hl : (s m.key).lock with
  | some lock =>
    simp only [hl] at h
    split at h
    · rename_i ht
      exact .inl ⟨lock, rfl, ht, (Except.ok.inj h).symm⟩
    · cases h
  | none =>
    simp only [hl] at h
    split at h
    · cases h
    · rename_i hc
      refine .inr ⟨rfl, by simpa using hc, ?_⟩
      obtain rfl := Except.ok.inj h
      refine ⟨fun x hx => ?_, ?_⟩
      · rcases List.mem_cons.mp hx with rfl | hx
        · rfl
        · exact putLargeValue_key hx
      · rw [prewritten, asyncLock_startTS]
        rfl

/-! ### One-phase commit -/

structure OnePCProps where
  startTS : TimeStamp
  commitTS : TimeStamp
  primary : Key
  lockTTL : UInt64

/-- The newest record of the key is a Put or Delete committed after `ts`. -/
def newestConflict (snap : Store) (key : Key) (ts : TimeStamp) : Bool :=
  match seekWrite snap key tsMax with
  | some (commitTS, write) =>
    ts < commitTS ∧ write.writeType ≠ .rollback ∧ write.writeType ≠ .lock
  | none => false

theorem newestConflict_eq_conflictLoop (s : Store) (k : Key) (ts : TimeStamp) :
    newestConflict s k ts = conflictLoop s k ts 1 tsMax := by
  unfold newestConflict
  rw [conflictLoop]
  cases seekWrite s k tsMax with
  | none => rfl
  | some q =>
    obtain ⟨c, w⟩ := q
    by_cases hc : c ≤ ts
    · simp [hc, not_lt.mpr hc]
    · simp [hc, not_le.mp hc, conflictLoop]

/-- The error of a one-phase commit on one of its keys. -/
def onePCError (snap : Store) (props : OnePCProps) (m : Mutation) : Option TxnError :=
  match (loadLock snap m.key).filter fun lock => lock.startTS ≠ props.startTS with
  | some _ => some .keyIsLocked
  | none => if newestConflict snap m.key props.startTS then some .writeConflict else none

def mutationOpToWriteType : MutationOp → WriteType
  | .put => .put
  | .delete => .delete
  | .lock => .lock

def OnePCProps.write (props : OnePCProps) (m : Mutation) : Write where
  writeType := mutationOpToWriteType m.op
  startTS := props.startTS
  shortValue := m.shortValue

/-- The operations of a one-phase commit for a mutation. -/
def OnePCProps.modifies (props : OnePCProps) (m : Mutation) : List Modify :=
  m.putLargeValue props.startTS ++ [.putWrite m.key props.commitTS (props.write m)]

/-- `PrewriteAndCommit1PC`: all mutations are checked before a record is written. -/
def prewriteAndCommit1PC (snap : Store) (props : OnePCProps) (mutations : List Mutation) :
    List (Option TxnError) × List Modify :=
  let errs := mutations.map (onePCError snap props)
  if errs.any Option.isSome then (errs, []) else (errs, mutations.flatMap props.modifies)

variable {props : OnePCProps}

theorem onePCError_eq_none {s : Store} (h : onePCError s props m = none) :
    (∀ lock, (s m.key).lock = some lock → lock.startTS = props.startTS) ∧
      conflictLoop s m.key props.startTS 1 tsMax = false := by
  unfold onePCError loadLock at h
  cases hl : (s m.key).lock.filter fun lock => lock.startTS ≠ props.startTS with
  | some lock =>
    rw [hl] at h
    cases h
  | none =>
    rw [hl] at h
    constructor
    · intro lock hlock
      rw [hlock] at hl
      by_contra hne
      simp [Option.filter, hne] at hl
    · rw [← newestConflict_eq_conflictLoop]
      by_contra hc
      simp [hc] at h

theorem prewriteAndCommit1PC_cases (s : Store) (props : OnePCProps) (muts : List Mutation) :
    ((prewriteAndCommit1PC s props muts).1.any Option.isSome = true ∧
      (prewriteAndCommit1PC s props muts).2 = []) ∨
    ((prewriteAndCommit1PC s props muts).1.any Option.isSome = false ∧
      (∀ m ∈ muts, onePCError s props m = none) ∧
      (prewriteAndCommit1PC s props muts).2 = muts.flatMap props.modifies) := by
  unfold prewriteAndCommit1PC
  dsimp only
  by_cases h : (muts.map (onePCError s props)).any Option.isSome
  · rw [if_pos h]
    exact .inl ⟨h, rfl⟩
  · rw [if_neg h]
    refine .inr ⟨by simpa using h, ?_, rfl⟩
    simpa using h

theorem OnePCProps.modifies_key {x : Modify} (hx : x ∈ props.modifies m) : x.key = m.key := by
  rcases List.mem_append.mp hx with hx | hx
  · exact putLargeValue_key hx
  · rw [List.mem_singleton.mp hx]
    rfl

def onePCCommitted (r : Row) (props : OnePCProps) (m : Mutation) : Row :=
  (props.modifies m).foldl Row.apply r

@[simp] theorem onePCCommitted_lock (r : Row) (props : OnePCProps) (m : Mutation) :
    (onePCCommitted r props m).lock = r.lock := by
  unfold onePCCommitted OnePCProps.modifies Mutation.putLargeValue
  split
  · split <;> rfl
  · rfl

@[simp] theorem onePCCommitted_writes (r : Row) (props : OnePCProps) (m : Mutation) :
    (onePCCommitted r props m).writes =
      r.writes.put props.commitTS (props.write m).reload := by
  unfold onePCCommitted OnePCProps.modifies Mutation.putLargeValue
  split
  · split <;> rfl
  · rfl

theorem onePCCommitted_values_of_ne {t : TimeStamp} {r : Row} (ht : t ≠ props.startTS) :
    (onePCCommitted r props m).values t = r.values t := by
  unfold onePCCommitted OnePCProps.modifies Mutation.putLargeValue
  split
  · split
    · exact Function.update_of_ne ht _ _
    · rfl
  · rfl

/-- `Is1PCEligible`; a size of `0` stands for the default. -/
def is1PCEligible (mutations : List Mutation) (maxSize : ℕ) : Bool :=
  let maxSize := if maxSize = 0 then 64 else maxSize
  let totalSize := (mutations.map fun m => m.key.length + (m.value.getD []).length).sum
  mutations ≠ [] ∧ mutations.length ≤ maxSize ∧ totalSize < 256 * 1024

/-- `IsAsyncCommitEligible`. -/
def isAsyncCommitEligible (mutations : List Mutation) (maxKeys : ℕ) : Bool :=
  let maxKeys := if maxKeys = 0 then 256 else maxKeys
  mutations ≠ [] ∧ mutations.length ≤ maxKeys

end Txn
