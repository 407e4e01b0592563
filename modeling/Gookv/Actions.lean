/-
The Percolator actions on a single key (`internal/storage/txn/actions.go`).

An action reads a snapshot of the store and either fails or yields the
operations to write.  Nothing is written when it fails.
-/
import Gookv.Mvcc

open Txntypes Mvcc

namespace Txn

open Function List Option

inductive TxnError
  | writeConflict
  | keyIsLocked
  | keyLocked (key : Key) (lock : Lock)
  | txnLockNotFound
  | alreadyCommitted
  | commitTSLessThanMin
  deriving DecidableEq

structure PrewriteProps where
  startTS : TimeStamp
  primary : Key
  lockTTL : UInt64
  isPrimary : Bool := false

inductive MutationOp
  | put
  | delete
  | lock
  deriving DecidableEq

structure Mutation where
  op : MutationOp
  key : Key
  value : Option Value := none
  deriving DecidableEq

def mutationOpToLockType : MutationOp → LockType
  | .put => .put
  | .delete => .delete
  | .lock => .lock

def lockTypeToWriteType : LockType → WriteType
  | .put => .put
  | .delete => .delete
  | .lock => .lock
  | .pessimistic => .put

def Mutation.shortValue (m : Mutation) : Option Value :=
  m.value.filter fun v => v.length ≤ shortValueMaxLen

def Mutation.putLargeValue (m : Mutation) (startTS : TimeStamp) : List Modify :=
  match m.op, m.value with
  | .put, some v => if shortValueMaxLen < v.length then [.putValue m.key startTS v] else []
  | _, _ => []

/-- The conflict loop of a prewrite, over up to `n` records downwards from `seekTS`. -/
def conflictLoop (snap : Store) (key : Key) (startTS : TimeStamp) : ℕ → TimeStamp → Bool
  | 0, _ => false
  | n + 1, seekTS =>
    match seekWrite snap key seekTS with
    | none => false
    | some (commitTS, write) =>
      if commitTS ≤ startTS then false
      else if write.writeType ≠ .rollback ∧ write.writeType ≠ .lock then true
      else conflictLoop snap key startTS n (prev commitTS)

def conflictBound : ℕ := seekBound * 2

/-- Fewer than `n` records are above the newest data record, or none of it is after `ts`. -/
def InReach (n : ℕ) (ts : TimeStamp) (r : Row) : Prop :=
  (∃ q ∈ r.writes.entries, q.2.isDataChanged ∧ ts < q.1) →
    (r.writes.entries.takeWhile fun q => !q.2.isDataChanged).length < n

instance (n : ℕ) (ts : TimeStamp) (r : Row) : Decidable (InReach n ts r) :=
  inferInstanceAs (Decidable (_ → _))

def conflictScan (startTS : TimeStamp) : ℕ → List (TimeStamp × Write) → Bool
  | 0, _ => false
  | _ + 1, [] => false
  | n + 1, (commitTS, write) :: rest =>
    if commitTS ≤ startTS then false
    else if write.writeType ≠ .rollback ∧ write.writeType ≠ .lock then true
    else conflictScan startTS n rest

variable {k : Key} {ms : List Modify} {m : Mutation} {r : Row} {s : Store} {t ts : TimeStamp}
  {x : Modify} {c : TimeStamp}

theorem conflictLoop_eq_scan : ∀ {n : ℕ} {seekTS : TimeStamp},
      conflictLoop s k ts n seekTS = conflictScan ts n ((s k).writes.upTo seekTS)
  | 0, _ => by simp [conflictLoop, conflictScan]
  | n + 1, seekTS => by
    rw [conflictLoop, seekWrite, Versions.seek]
    cases hl : (s k).writes.upTo seekTS with
    | nil => rfl
    | cons q rest =>
      obtain ⟨c, w⟩ := q
      simp only [List.head?_cons, conflictScan]
      by_cases hc : c ≤ ts
      · simp [hc]
      · have hc0 : c ≠ 0 := by
          rintro rfl
          exact hc (UInt64.zero_le)
        rw [conflictLoop_eq_scan, Versions.upTo_of_cons hl fun a => le_prev_iff hc0]

theorem le_of_conflictScan_eq_false :
    ∀ {n : ℕ} {l : List (TimeStamp × Write)}, (l.Pairwise fun a b => b.1 < a.1) →
      conflictScan ts n l = false → (l.takeWhile fun q => !q.2.isDataChanged).length < n →
      ∀ q ∈ l, q.2.isDataChanged → q.1 ≤ ts
  | 0, _, _, _, hn => absurd hn (by simp)
  | _ + 1, [], _, _, _ => by simp
  | n + 1, (c, w) :: l, hl, h, hn => by
    obtain ⟨hc, hl'⟩ := List.pairwise_cons.mp hl
    intro q hq hdata
    rw [conflictScan] at h
    by_cases hcts : c ≤ ts
    · rcases List.mem_cons.mp hq with rfl | hq'
      · exact hcts
      · exact (hc q hq').le.trans hcts
    · rw [if_neg hcts] at h
      by_cases hw : w.isDataChanged
      · rw [if_pos (Write.isDataChanged_iff.mp hw)] at h
        exact absurd h (by simp)
      · -- a skipped record: the rest of the chain is looked at with one step less
        rw [if_neg (mt Write.isDataChanged_iff.mpr hw)] at h
        have hn' : (l.takeWhile fun q => !q.2.isDataChanged).length < n := by
          simpa [takeWhile_cons, hw] using hn
        rcases mem_cons.mp hq with rfl | hq'
        · exact absurd hdata hw
        · exact le_of_conflictScan_eq_false hl' h hn' q hq' hdata

theorem le_of_conflictLoop_eq_false {n : ℕ} {q : TimeStamp × Write}
    (h : conflictLoop s k ts n tsMax = false) (hn : InReach n ts (s k))
    (hq : q ∈ (s k).writes.entries) (hdata : q.2.isDataChanged) :
    q.1 ≤ ts := by
  by_contra hlt
  have hn' := hn ⟨q, hq, hdata, not_le.mp hlt⟩
  have hup : (s k).writes.upTo tsMax = (s k).writes.entries :=
    Versions.upTo_eq_entries fun q => le_tsMax q.1
  rw [conflictLoop_eq_scan, hup] at h
  exact hlt (le_of_conflictScan_eq_false (s k).writes.sorted h hn' q hq hdata)

/-! ### The actions -/

def PrewriteProps.lock (props : PrewriteProps) (m : Mutation) : Lock where
  lockType := mutationOpToLockType m.op
  primary := props.primary
  startTS := props.startTS
  ttl := props.lockTTL
  shortValue := m.shortValue

def prewrite (snap : Store) (props : PrewriteProps) (mutation : Mutation) :
    Except TxnError (List Modify) :=
  match loadLock snap mutation.key with
  | some existingLock =>
    if existingLock.startTS = props.startTS then .ok []
    else .error (.keyLocked mutation.key existingLock)
  | none =>
    if conflictLoop snap mutation.key props.startTS conflictBound tsMax then
      .error .writeConflict
    else
      .ok (.putLock mutation.key (props.lock mutation) ::
        mutation.putLargeValue props.startTS)

def commit (snap : Store) (key : Key) (startTS commitTS : TimeStamp) :
    Except TxnError (List Modify) :=
  match loadLock snap key with
  | none => .error .txnLockNotFound
  | some lock =>
    if lock.startTS ≠ startTS then .error .txnLockNotFound
    else if commitTS < lock.minCommitTS then .error .commitTSLessThanMin
    else if lock.lockType = .pessimistic then .ok [.unlockKey key]
    else .ok [.unlockKey key, .putWrite key commitTS
      { writeType := lockTypeToWriteType lock.lockType, startTS := lock.startTS,
        shortValue := lock.shortValue }]

def rollbackWrite (startTS : TimeStamp) : Write :=
  { writeType := .rollback, startTS := startTS }

def removeLock (key : Key) (startTS : TimeStamp) (lock : Lock) : List Modify :=
  if lock.shortValue = none ∧ lock.lockType = .put then
    [.unlockKey key, .deleteValue key startTS]
  else [.unlockKey key]

def rollback (snap : Store) (key : Key) (startTS : TimeStamp) :
    Except TxnError (List Modify) :=
  match getTxnCommitRecord snap key startTS with
  | some (_, existingWrite) =>
    if existingWrite.writeType ≠ .rollback then .error .alreadyCommitted else .ok []
  | none =>
    match loadLock snap key with
    | some lock =>
      if lock.startTS = startTS then
        .ok (removeLock key startTS lock ++ [.putWrite key startTS (rollbackWrite startTS)])
      else .ok [.putWrite key startTS (rollbackWrite startTS)]
    | none => .ok [.putWrite key startTS (rollbackWrite startTS)]

structure TxnStatus where
  isLocked : Bool := false
  lock : Option Lock := none
  commitTS : TimeStamp := 0
  isRolledBack : Bool := false
  deriving DecidableEq

def TxnStatus.ofRecord : TimeStamp × Write → TxnStatus
  | (commitTS, write) =>
    if write.writeType = .rollback then { isRolledBack := true } else { commitTS := commitTS }

def checkTxnStatus (snap : Store) (primaryKey : Key) (startTS : TimeStamp) : TxnStatus :=
  match (loadLock snap primaryKey).filter fun lock => lock.startTS = startTS with
  | some lock => { isLocked := true, lock := some lock }
  | none =>
    match getTxnCommitRecord snap primaryKey startTS with
    | some record => .ofRecord record
    | none => {}

def lockExpired (lock : Lock) (startTS callerStartTS : TimeStamp) : Bool :=
  physical startTS + lock.ttl ≤ physical callerStartTS

def checkTxnStatusWithCleanup (snap : Store) (primaryKey : Key)
    (startTS callerStartTS : TimeStamp) (rollbackIfNotExist : Bool) :
    TxnStatus × List Modify :=
  match (loadLock snap primaryKey).filter fun lock => lock.startTS = startTS with
  | some lock =>
    if lockExpired lock startTS callerStartTS then
      ({ isRolledBack := true }, removeLock primaryKey startTS lock ++
        [.putWrite primaryKey startTS (rollbackWrite startTS)])
    else ({ isLocked := true, lock := some lock }, [])
  | none =>
    match getTxnCommitRecord snap primaryKey startTS with
    | some record => (.ofRecord record, [])
    | none =>
      if rollbackIfNotExist then
        ({ isRolledBack := true }, [.putWrite primaryKey startTS (rollbackWrite startTS)])
      else ({}, [])

def resolveLock (snap : Store) (key : Key) (startTS commitTS : TimeStamp) :
    Except TxnError (List Modify) :=
  match loadLock snap key with
  | none => .ok []
  | some lock =>
    if lock.startTS ≠ startTS then .ok []
    else if 0 < commitTS then commit snap key startTS commitTS
    else rollback snap key startTS

/-! ### What the actions do to the row of their key -/

def prewritten (r : Row) (lock : Lock) (m : Mutation) : Row :=
  (m.putLargeValue lock.startTS).foldl Row.apply { r with lock := some lock.reload }

def commitWrite (lock : Lock) : Write :=
  { writeType := lockTypeToWriteType lock.lockType, startTS := lock.startTS,
    shortValue := lock.shortValue }

def committed (r : Row) (lock : Lock) (commitTS : TimeStamp) : Row :=
  { r with lock := none, writes := r.writes.put commitTS (commitWrite lock).reload }

def rolledBack (r : Row) (startTS : TimeStamp) : Row where
  lock := r.lock.filter fun lock => lock.startTS ≠ startTS
  writes := r.writes.put startTS (rollbackWrite startTS).reload
  values :=
    match r.lock with
    | some lock =>
      if lock.startTS = startTS ∧ lock.shortValue = none ∧ lock.lockType = .put then
        Function.update r.values startTS none
      else r.values
    | none => r.values

@[simp] theorem prewritten_lock (r : Row) (lock : Lock) (m : Mutation) :
    (prewritten r lock m).lock = some lock.reload := by
  unfold prewritten Mutation.putLargeValue
  split
  · split <;> rfl
  · rfl

@[simp] theorem prewritten_writes (r : Row) (lock : Lock) (m : Mutation) :
    (prewritten r lock m).writes = r.writes := by
  unfold prewritten Mutation.putLargeValue
  split
  · split <;> rfl
  · rfl

theorem prewritten_values_of_ne {lock : Lock}
    (ht : t ≠ lock.startTS) : (prewritten r lock m).values t = r.values t := by
  unfold prewritten Mutation.putLargeValue
  split
  · split
    · exact update_of_ne ht _ _
    · rfl
  · rfl

@[simp] theorem committed_lock (r : Row) (lock : Lock) (c : TimeStamp) :
    (committed r lock c).lock = none := rfl

@[simp] theorem committed_writes (r : Row) (lock : Lock) (c : TimeStamp) :
    (committed r lock c).writes = r.writes.put c (commitWrite lock).reload := rfl

@[simp] theorem committed_values (r : Row) (lock : Lock) (c : TimeStamp) :
    (committed r lock c).values = r.values := rfl

@[simp] theorem commitWrite_startTS (lock : Lock) : (commitWrite lock).startTS = lock.startTS := rfl

theorem commitWrite_writeType_ne (lock : Lock) : (commitWrite lock).writeType ≠ .rollback := by
  unfold commitWrite lockTypeToWriteType
  cases lock.lockType <;> simp

@[simp] theorem rolledBack_lock (r : Row) (t : TimeStamp) :
    (rolledBack r t).lock = r.lock.filter fun lock => lock.startTS ≠ t := rfl

@[simp] theorem rolledBack_writes (r : Row) (t : TimeStamp) :
    (rolledBack r t).writes = r.writes.put t (rollbackWrite t).reload := rfl

theorem rolledBack_values_of_ne {t' : TimeStamp}
    (h : t' ≠ t ∨ ∀ lock, r.lock = some lock → lock.startTS ≠ t) :
    (rolledBack r t).values t' = r.values t' := by
  unfold rolledBack
  cases hl : r.lock with
  | none => rfl
  | some lock =>
    dsimp only
    split
    · rename_i hlock
      rcases h with h | h
      · exact update_of_ne h _ _
      · exact absurd hlock.1 (h lock hl)
    · rfl

theorem prewritten_eq (r : Row) (props : PrewriteProps) (m : Mutation) :
    (Modify.putLock m.key (props.lock m) :: m.putLargeValue props.startTS).foldl Row.apply r
      = prewritten r (props.lock m) m := rfl

theorem putLargeValue_key (hx : x ∈ m.putLargeValue t) : x.key = m.key := by
  unfold Mutation.putLargeValue at hx
  split at hx
  · split at hx
    · rw [mem_singleton] at hx
      exact hx ▸ rfl
    · cases hx
  · cases hx

theorem rolledBack_eq_of_lock {lock : Lock} (k : Key)
    (hl : r.lock = some lock) (ht : lock.startTS = t) :
    (removeLock k t lock ++ [Modify.putWrite k t (rollbackWrite t)]).foldl Row.apply r
      = rolledBack r t := by
  unfold removeLock rolledBack
  by_cases h : lock.shortValue = none ∧ lock.lockType = .put
  · simp [hl, ht, h, Row.apply, Option.filter]
  · simp [hl, ht, h, Row.apply, Option.filter]

theorem rolledBack_eq_of_not_lock (k : Key) (hl : ∀ lock, r.lock = some lock → lock.startTS ≠ t) :
    [Modify.putWrite k t (rollbackWrite t)].foldl Row.apply r = rolledBack r t := by
  unfold rolledBack
  cases h : r.lock with
  | none => simp [Row.apply, h]
  | some lock => simp [Row.apply, h, hl lock h, Option.filter]

theorem removeLock_key {lock : Lock}
    (hx : x ∈ removeLock k t lock ++ [Modify.putWrite k t (rollbackWrite t)]) : x.key = k := by
  unfold removeLock at hx
  split at hx
  · simp only [cons_append, nil_append, mem_cons, not_mem_nil,
      or_false] at hx
    rcases hx with rfl | rfl | rfl <;> rfl
  · simp only [cons_append, nil_append, mem_cons, not_mem_nil,
      or_false] at hx
    rcases hx with rfl | rfl <;> rfl

def Turns (ms : List Modify) (k : Key) (r r' : Row) : Prop :=
  (∀ x ∈ ms, x.key = k) ∧ ms.foldl Row.apply r = r'

theorem Turns.nil (k : Key) (r : Row) : Turns [] k r r := ⟨by simp, rfl⟩

theorem Turns.applyModifies_eq {r' : Row}
    (h : Turns ms k (s k) r') : applyModifies s ms = Function.update s k r' := by
  funext k'
  by_cases hk : k' = k
  · subst hk
    rw [applyModifies_of_forall_eq h.1, h.2, update_self]
  · rw [update_of_ne hk]
    exact applyModifies_of_forall_ne fun x hx hx' => hk (hx'.symm.trans (h.1 x hx))

theorem prewrite_ok {props : PrewriteProps} (h : prewrite s props m = .ok ms) :
    (∃ lock, (s m.key).lock = some lock ∧ lock.startTS = props.startTS ∧ ms = []) ∨
    ((s m.key).lock = none ∧ conflictLoop s m.key props.startTS conflictBound tsMax = false ∧
      Turns ms m.key (s m.key) (prewritten (s m.key) (props.lock m) m)) := by
  unfold prewrite loadLock at h
  cases hl : (s m.key).lock with
  | some lock =>
    simp only [hl] at h
    split at h
    · rename_i ht
      exact .inl ⟨lock, rfl, ht, (Except.ok.inj h).symm⟩
    · cases h
  | none =>
    simp only [hl] at h
    split at h
    · cases h
    · rename_i hc
      refine .inr ⟨rfl, by simpa using hc, ?_⟩
      obtain rfl := Except.ok.inj h
      refine ⟨fun x hx => ?_, prewritten_eq _ _ _⟩
      rcases mem_cons.mp hx with rfl | hx
      · rfl
      · exact putLargeValue_key hx

theorem commit_ok (h : commit s k t c = .ok ms) :
    ∃ lock, (s k).lock = some lock ∧ lock.startTS = t ∧ lock.minCommitTS ≤ c ∧
      ((lock.lockType = .pessimistic ∧ Turns ms k (s k) { s k with lock := none }) ∨
        (lock.lockType ≠ .pessimistic ∧ Turns ms k (s k) (committed (s k) lock c))) := by
  unfold commit loadLock at h
  cases hl : (s k).lock with
  | none => simp [hl] at h
  | some lock =>
    simp only [hl] at h
    split at h
    · cases h
    · rename_i ht
      split at h
      · cases h
      · rename_i hc
        refine ⟨lock, rfl, not_not.mp ht, not_lt.mp hc, ?_⟩
        split at h
        · rename_i hp
          obtain rfl := Except.ok.inj h
          refine .inl ⟨hp, fun x hx => ?_, rfl⟩
          rw [mem_singleton.mp hx]
          rfl
        · rename_i hp
          obtain rfl := Except.ok.inj h
          refine .inr ⟨hp, fun x hx => ?_, rfl⟩
          simp only [mem_cons, not_mem_nil, or_false] at hx
          rcases hx with rfl | rfl <;> rfl

theorem rollback_ok (h : rollback s k t = .ok ms) :
    (∃ c w, getTxnCommitRecord s k t = some (c, w) ∧ w.writeType = .rollback ∧ ms = []) ∨
    (getTxnCommitRecord s k t = none ∧ Turns ms k (s k) (rolledBack (s k) t)) := by
  unfold rollback loadLock at h
  cases hr : getTxnCommitRecord s k t with
  | some q =>
    obtain ⟨c, w⟩ := q
    simp only [hr] at h
    split at h
    · cases h
    · rename_i hw
      exact .inl ⟨c, w, rfl, not_not.mp hw, (Except.ok.inj h).symm⟩
  | none =>
    refine .inr ⟨rfl, ?_⟩
    simp only [hr] at h
    cases hl : (s k).lock with
    | none =>
      simp only [hl] at h
      obtain rfl := Except.ok.inj h
      exact ⟨by simp [Modify.key], rolledBack_eq_of_not_lock k (by simp [hl])⟩
    | some lock =>
      simp only [hl] at h
      split at h
      · rename_i ht
        obtain rfl := Except.ok.inj h
        exact ⟨fun x hx => removeLock_key hx, rolledBack_eq_of_lock k hl ht⟩
      · rename_i ht
        obtain rfl := Except.ok.inj h
        exact ⟨by simp [Modify.key], rolledBack_eq_of_not_lock k (by simp [hl, ht])⟩

theorem resolveLock_ok (h : resolveLock s k t c = .ok ms) :
    ((∀ lock, (s k).lock = some lock → lock.startTS ≠ t) ∧ ms = []) ∨
    ((∃ lock, (s k).lock = some lock ∧ lock.startTS = t) ∧
      (0 < c ∧ commit s k t c = .ok ms ∨ c = 0 ∧ rollback s k t = .ok ms)) := by
  unfold resolveLock loadLock at h
  cases hl : (s k).lock with
  | none =>
    simp only [hl] at h
    exact .inl ⟨by simp, (Except.ok.inj h).symm⟩
  | some lock =>
    simp only [hl] at h
    split at h
    · rename_i ht
      refine .inl ⟨fun lock' hl' => ?_, (Except.ok.inj h).symm⟩
      cases hl'
      exact ht
    · rename_i ht
      refine .inr ⟨⟨lock, rfl, not_not.mp ht⟩, ?_⟩
      split at h
      · rename_i hc
        exact .inl ⟨hc, h⟩
      · rename_i hc
        exact .inr ⟨by grind, h⟩

theorem checkTxnStatusWithCleanup_cases (s : Store) (p : Key) (t caller : TimeStamp) (rb : Bool) :
    (∃ lock, (s p).lock = some lock ∧ lock.startTS = t ∧
      checkTxnStatusWithCleanup s p t caller rb =
        ({ isLocked := true, lock := some lock }, [])) ∨
    ((∃ lock, (s p).lock = some lock ∧ lock.startTS = t) ∨
        getTxnCommitRecord s p t = none) ∧
      (∃ ms, checkTxnStatusWithCleanup s p t caller rb = ({ isRolledBack := true }, ms) ∧
        Turns ms p (s p) (rolledBack (s p) t)) ∨
    (∀ lock, (s p).lock = some lock → lock.startTS ≠ t) ∧
      ((∃ q, getTxnCommitRecord s p t = some q ∧
          checkTxnStatusWithCleanup s p t caller rb = (.ofRecord q, [])) ∨
        getTxnCommitRecord s p t = none ∧
          checkTxnStatusWithCleanup s p t caller rb = ({}, [])) := by
  unfold checkTxnStatusWithCleanup loadLock
  cases hl : (s p).lock.filter fun lock => lock.startTS = t with
  | some lock =>
    obtain ⟨hl1, hl2⟩ := Option.filter_eq_some_iff.mp hl
    have ht : lock.startTS = t := by simpa using hl2
    dsimp only
    by_cases he : lockExpired lock t caller
    · rw [if_pos he]
      exact Or.inr (Or.inl ⟨Or.inl ⟨lock, hl1, ht⟩, _, rfl, fun x hx => removeLock_key hx,
        rolledBack_eq_of_lock p hl1 ht⟩)
    · rw [if_neg he]
      exact Or.inl ⟨lock, hl1, ht, rfl⟩
  | none =>
    have hno : ∀ lock, (s p).lock = some lock → lock.startTS ≠ t := by
      intro lock hlock ht
      rw [hlock] at hl
      simp [Option.filter, ht] at hl
    dsimp only
    cases hr : getTxnCommitRecord s p t with
    | some q => exact Or.inr (Or.inr ⟨hno, Or.inl ⟨q, rfl, rfl⟩⟩)
    | none =>
      dsimp only
      by_cases hrb : rb
      · rw [if_pos hrb]
        exact Or.inr (Or.inl ⟨Or.inr rfl, _, rfl, by simp [Modify.key],
          rolledBack_eq_of_not_lock p hno⟩)
      · rw [if_neg hrb]
        exact Or.inr (Or.inr ⟨hno, Or.inr ⟨rfl, rfl⟩⟩)

end Txn
