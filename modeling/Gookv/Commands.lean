/-
All commands of the transaction storage, and what each does to a row.

`Effect` describes what an action leaves of its row: the lock, and one write record.
-/
import Gookv.Batch
import Gookv.StepSystem
import Gookv.StorageSpec

open Txntypes Mvcc Txn

namespace Storage

open StepSystem

open LastWrite List Modify Option

/-- A command of the transaction storage; `prewritePessimistic` is one that no handler runs. -/
inductive Command
  | prewrite (mutations : List Mutation) (primary : Key) (startTS : TimeStamp)
    (lockTTL : UInt64)
  | prewriteAsyncCommit (mutations : List Mutation) (primary : Key) (startTS : TimeStamp)
    (lockTTL : UInt64) (secondaries : List Key) (maxCommitTS : TimeStamp)
  | prewrite1PC (mutations : List Mutation) (primary : Key) (startTS commitTS : TimeStamp)
    (lockTTL : UInt64)
  | pessimisticLock (keys : List Key) (primary : Key) (startTS forUpdateTS : TimeStamp)
    (lockTTL : UInt64)
  | prewritePessimistic (props : PessimisticPrewriteProps) (mutation : Mutation)
  | pessimisticRollback (keys : List Key) (startTS forUpdateTS : TimeStamp)
  | commit (keys : List Key) (startTS commitTS : TimeStamp)
  | batchRollback (keys : List Key) (startTS : TimeStamp)
  | resolveLock (startTS commitTS : TimeStamp) (keys : List Key)
  | checkTxnStatusWithCleanup (primaryKey : Key) (startTS callerStartTS : TimeStamp)
    (rollbackIfNotExist : Bool)
  | cleanup (key : Key) (startTS : TimeStamp)
  | cleanupModifies (key : Key) (startTS : TimeStamp)

def run (s : Store) : Command → Store
  | .prewrite mutations primary startTS lockTTL =>
    (prewrite s mutations primary startTS lockTTL).2
  | .prewriteAsyncCommit mutations primary startTS lockTTL secondaries maxCommitTS =>
    (prewriteAsyncCommit s mutations primary startTS lockTTL secondaries maxCommitTS).2.2
  | .prewrite1PC mutations primary startTS commitTS lockTTL =>
    (prewrite1PC s mutations primary startTS commitTS lockTTL).2.2
  | .pessimisticLock keys primary startTS forUpdateTS lockTTL =>
    (pessimisticLock s keys primary startTS forUpdateTS lockTTL).2
  | .prewritePessimistic props mutation => (finish s (prewritePessimistic s props mutation)).2
  | .pessimisticRollback keys startTS forUpdateTS =>
    pessimisticRollbackKeys s keys startTS forUpdateTS
  | .commit keys startTS commitTS => (commit s keys startTS commitTS).2
  | .batchRollback keys startTS => (batchRollback s keys startTS).2
  | .resolveLock startTS commitTS keys => (resolveLock s startTS commitTS keys).2
  | .checkTxnStatusWithCleanup primaryKey startTS callerStartTS rollbackIfNotExist =>
    (checkTxnStatusWithCleanup s primaryKey startTS callerStartTS rollbackIfNotExist).2
  | .cleanup key startTS => (cleanup s key startTS).2.2
  | .cleanupModifies key startTS =>
    (finish s ((cleanupModifies s key startTS).map Prod.snd)).2

open Command

/-! ### A command as a list of actions -/

inductive KeyAction
  | prewrite (props : PrewriteProps) (mutation : Mutation)
  | prewriteAsyncCommit (props : AsyncCommitPrewriteProps) (mutation : Mutation)
  | onePC (props : OnePCProps) (mutation : Mutation)
  | acquirePessimisticLock (props : PessimisticLockProps) (key : Key)
  | prewritePessimistic (props : PessimisticPrewriteProps) (mutation : Mutation)
  | pessimisticRollback (key : Key) (startTS forUpdateTS : TimeStamp)
  | commit (key : Key) (startTS commitTS : TimeStamp)
  | rollback (key : Key) (startTS : TimeStamp)
  | resolveLock (key : Key) (startTS commitTS : TimeStamp)
  | checkTxnStatusWithCleanup (key : Key) (startTS callerStartTS : TimeStamp)
    (rollbackIfNotExist : Bool)
  | cleanup (key : Key) (startTS : TimeStamp)
  | cleanupModifies (key : Key) (startTS : TimeStamp)

def Command.actions : Command → List KeyAction
  | .prewrite mutations primary startTS lockTTL =>
    mutations.map fun m => .prewrite
      { startTS := startTS, primary := primary, lockTTL := lockTTL,
        isPrimary := m.key = primary } m
  | .prewriteAsyncCommit mutations primary startTS lockTTL secondaries maxCommitTS =>
    mutations.map fun m => .prewriteAsyncCommit
      { startTS := startTS, primary := primary, lockTTL := lockTTL,
        isPrimary := m.key = primary, useAsyncCommit := true, secondaries := secondaries,
        maxCommitTS := maxCommitTS } m
  | .prewrite1PC mutations primary startTS commitTS lockTTL =>
    mutations.map (.onePC
      { startTS := startTS, commitTS := commitTS, primary := primary, lockTTL := lockTTL })
  | .pessimisticLock keys primary startTS forUpdateTS lockTTL =>
    keys.map (.acquirePessimisticLock
      { startTS := startTS, forUpdateTS := forUpdateTS, primary := primary,
        lockTTL := lockTTL })
  | .prewritePessimistic props mutation => [.prewritePessimistic props mutation]
  | .pessimisticRollback keys startTS forUpdateTS =>
    keys.map (.pessimisticRollback · startTS forUpdateTS)
  | .commit keys startTS commitTS => keys.map (.commit · startTS commitTS)
  | .batchRollback keys startTS => keys.map (.rollback · startTS)
  | .resolveLock startTS commitTS keys => keys.map (.resolveLock · startTS commitTS)
  | .checkTxnStatusWithCleanup primaryKey startTS callerStartTS rollbackIfNotExist =>
    [.checkTxnStatusWithCleanup primaryKey startTS callerStartTS rollbackIfNotExist]
  | .cleanup key startTS => [.cleanup key startTS]
  | .cleanupModifies key startTS => [.cleanupModifies key startTS]

def lockOf (s : Store) (k : Key) (t : TimeStamp) : Option Lock :=
  (s k).lock.filter fun lock => lock.startTS = t

open KeyAction

theorem filter_loadLock (s : Store) (k : Key) (t : TimeStamp) :
    ((loadLock s k).filter fun lock => lock.startTS = t) = lockOf s k t := rfl

def KeyAction.result (s : Store) : KeyAction → Except TxnError (List Modify)
  | .prewrite props m => Txn.prewrite s props m
  | .prewriteAsyncCommit props m => Txn.prewriteAsyncCommit s props m
  | .onePC props m =>
    match onePCError s props m with
    | some e => .error e
    | none => .ok (props.modifies m)
  | .acquirePessimisticLock props key => Txn.acquirePessimisticLock s props key
  | .prewritePessimistic props m => Txn.prewritePessimistic s props m
  | .pessimisticRollback key startTS forUpdateTS =>
    .ok (pessimisticRollbackKey s startTS forUpdateTS key)
  | .commit key startTS commitTS => Txn.commit s key startTS commitTS
  | .rollback key startTS => Txn.rollback s key startTS
  | .resolveLock key startTS commitTS => Txn.resolveLock s key startTS commitTS
  | .checkTxnStatusWithCleanup key startTS callerStartTS rollbackIfNotExist =>
    .ok (Txn.checkTxnStatusWithCleanup s key startTS callerStartTS rollbackIfNotExist).2
  | .cleanup key startTS =>
    match lockOf s key startTS with
    | none => .ok []
    | some lock =>
      let primaryStatus := checkTxnStatus s lock.primary startTS
      if primaryStatus.commitTS ≠ 0 then
        Txn.resolveLock s key startTS primaryStatus.commitTS
      else Txn.rollback s key startTS
  | .cleanupModifies key startTS => (Storage.cleanupModifies s key startTS).map Prod.snd

theorem runEach_snd {α : Type*} (s : Store) (action : α → Except TxnError (List Modify))
    (as : List α) : (runEach s action as).2 = (finish s (runAll action as)).2 := by
  cases hr : runAll action as with
  | ok ms =>
    obtain ⟨hok, rfl⟩ := runAll_ok hr
    have herr : (as.map fun a => errorOf (action a)).any Option.isSome = false := by
      rw [List.any_eq_false]
      intro e he
      obtain ⟨a, ha, rfl⟩ := List.mem_map.mp he
      rw [hok a ha]
      simp [errorOf]
    simp [runEach, herr, finish]
  | error e =>
    have herr : (as.map fun a => errorOf (action a)).any Option.isSome = true := by
      obtain ⟨a, ha, hae⟩ := runAll_error hr
      rw [List.any_eq_true]
      exact ⟨some e, List.mem_map.mpr ⟨a, ha, by rw [hae]; rfl⟩, rfl⟩
    simp [runEach, herr, finish]

theorem prewrite1PC_store (s : Store) (props : OnePCProps) (ms : List Mutation) :
    (prewrite1PC s ms props.primary props.startTS props.commitTS props.lockTTL).2.2 =
      (finish s (runAll (fun m => KeyAction.result s (.onePC props m)) ms)).2 := by
  have hstore : (prewrite1PC s ms props.primary props.startTS props.commitTS
      props.lockTTL).2.2 = if (prewriteAndCommit1PC s props ms).1.any Option.isSome then s
        else applyModifies s (prewriteAndCommit1PC s props ms).2 := by
    unfold prewrite1PC
    dsimp only
    split <;> rfl
  rw [hstore]
  rcases prewriteAndCommit1PC_cases s props ms with ⟨herr, -⟩ | ⟨herr, hpass, hms⟩
  · rw [if_pos herr]
    have herrs : (prewriteAndCommit1PC s props ms).1 = ms.map (onePCError s props) := by
      unfold prewriteAndCommit1PC
      dsimp only
      split <;> rfl
    cases hr : runAll (fun m => KeyAction.result s (.onePC props m)) ms with
    | error e => rfl
    | ok xs =>
      -- a mutation with an error has no result
      rw [herrs, List.any_eq_true] at herr
      obtain ⟨e, he, hsome⟩ := herr
      obtain ⟨m, hm, rfl⟩ := List.mem_map.mp he
      obtain ⟨e', he'⟩ := Option.isSome_iff_exists.mp hsome
      have := (runAll_ok hr).1 m hm
      simp [KeyAction.result, he'] at this
  · rw [if_neg (by simp [herr]), hms, runAll_of_ok fun m hm => ?_]
    · rfl
    · simp [KeyAction.result, hpass m hm]

theorem cleanup_store (s : Store) (k : Key) (t : TimeStamp) :
    (cleanup s k t).2.2 = (finish s (KeyAction.result s (.cleanup k t))).2 := by
  rw [cleanup, KeyAction.result, filter_loadLock]
  cases hl : lockOf s k t with
  | none =>
    simp only [finish, applyModifies_nil]
    split
    · rfl
    · split <;> rfl
  | some lock =>
    -- a key that is locked by the transaction has no other status
    have hst : checkTxnStatus s k t = { isLocked := true, lock := some lock } := by
      rw [checkTxnStatus, filter_loadLock, hl]
    simp only [hst, ne_eq, not_true_eq_false, if_false, Bool.false_eq_true]
    split
    · cases Txn.resolveLock s k t (checkTxnStatus s lock.primary t).commitTS <;> rfl
    · cases Txn.rollback s k t <;> rfl

theorem run_eq (s : Store) (cmd : Command) :
    run s cmd = (finish s (runAll (KeyAction.result s) cmd.actions)).2 := by
  have hone : ∀ a : KeyAction, (finish s (a.result s)).2 =
      (finish s (runAll (result s) [a])).2 := by
    intro a
    cases h : a.result s <;> simp [runAll, h, finish]
  cases cmd with
  | prewrite ms p t ttl | prewriteAsyncCommit ms p t ttl secs maxTS =>
    rw [actions, runAll_map]
    exact runEach_snd _ _ _
  | prewrite1PC ms p t c ttl =>
    rw [actions, runAll_map]
    exact prewrite1PC_store s
      { startTS := t, commitTS := c, primary := p, lockTTL := ttl } ms
  | pessimisticLock keys p t fu ttl =>
    rw [actions, runAll_map]
    exact runEach_snd _ _ _
  | prewritePessimistic props m => exact hone (.prewritePessimistic props m)
  | pessimisticRollback keys t fu =>
    have hok : runAll (fun k => result s (.pessimisticRollback k t fu)) keys =
        .ok (pessimisticRollback s keys t fu) := runAll_of_ok fun k _ => rfl
    rw [actions, runAll_map, hok]
    rfl
  | commit keys t c | batchRollback keys t | resolveLock t c keys =>
    rw [actions, runAll_map]
    rfl
  | checkTxnStatusWithCleanup p t caller rb =>
    exact hone (.checkTxnStatusWithCleanup p t caller rb)
  | cleanup k t =>
    rw [run, cleanup_store]
    exact hone (.cleanup k t)
  | cleanupModifies k t => exact hone (.cleanupModifies k t)

/-! ### Effects -/

structure Effect where
  lock : Option (Option Lock) := none
  record : Option (TimeStamp × Write) := none

def Effect.recordAt (e : Effect) (ts : TimeStamp) : Option (Option Write) :=
  match e.record with
  | some (c, w) => if c = ts then some (some w) else none
  | none => none

def lockEffect (s : Store) (k : Key) (t : TimeStamp) (conflict : Bool) (lock : Lock) :
    Option Effect :=
  match (s k).lock with
  | some existing => if existing.startTS = t then some {} else none
  | none => if conflict then none else some { lock := some (some lock.reload) }

def commitEffect (s : Store) (k : Key) (t c : TimeStamp) : Option Effect :=
  match lockOf s k t with
  | none => none
  | some lock =>
    if c < lock.minCommitTS then none
    else if lock.lockType = .pessimistic then some { lock := some none }
    else some { lock := some none, record := some (c, (commitWrite lock).reload) }

def rollbackMark (s : Store) (k : Key) (t : TimeStamp) : Effect where
  lock := (lockOf s k t).map fun _ => none
  record := some (t, (rollbackWrite t).reload)

def rollbackEffect (s : Store) (k : Key) (t : TimeStamp) : Option Effect :=
  match getTxnCommitRecord s k t with
  | some (_, w) => if w.writeType = .rollback then some {} else none
  | none => some (rollbackMark s k t)

def resolveEffect (s : Store) (k : Key) (t c : TimeStamp) : Option Effect :=
  if (lockOf s k t).isNone then some {}
  else if 0 < c then commitEffect s k t c
  else rollbackEffect s k t

def KeyAction.key : KeyAction → Key
  | .prewrite _ m => m.key
  | .prewriteAsyncCommit _ m => m.key
  | .onePC _ m => m.key
  | .acquirePessimisticLock _ k => k
  | .prewritePessimistic _ m => m.key
  | .pessimisticRollback k _ _ => k
  | .commit k _ _ => k
  | .rollback k _ => k
  | .resolveLock k _ _ => k
  | .checkTxnStatusWithCleanup k _ _ _ => k
  | .cleanup k _ => k
  | .cleanupModifies k _ => k

def KeyAction.effect (s : Store) : KeyAction → Option Effect
  | .prewrite props m =>
    lockEffect s m.key props.startTS (conflictLoop s m.key props.startTS conflictBound tsMax)
      (props.lock m)
  | .prewriteAsyncCommit props m =>
    lockEffect s m.key props.startTS (conflictLoop s m.key props.startTS conflictBound tsMax)
      (props.asyncLock m)
  | .onePC props m =>
    if (onePCError s props m).isSome then none
    else some { record := some (props.commitTS, (props.write m).reload) }
  | .acquirePessimisticLock props k =>
    match (s k).lock with
    | some lock =>
      if lock.startTS ≠ props.startTS then none
      else if lock.lockType = .pessimistic ∧ lock.forUpdateTS < props.forUpdateTS then
        some { lock := some (some { lock with forUpdateTS := props.forUpdateTS }.reload) }
      else some {}
    | none =>
      if newestConflict s k props.forUpdateTS then none
      else some { lock := some (some props.lock.reload) }
  | .prewritePessimistic props m =>
    match (s m.key).lock with
    | some lock =>
      if lock.startTS ≠ props.startTS then none
      else if lock.lockType = .pessimistic then
        some { lock := some (some (props.pessimisticLock m).reload) }
      else some {}
    | none =>
      if props.isPessimistic ∨ newestConflict s m.key props.startTS then none
      else some { lock := some (some (props.pessimisticLock m).reload) }
  | .pessimisticRollback k t fu =>
    match lockOf s k t with
    | some lock =>
      if lock.lockType = .pessimistic ∧ (fu = 0 ∨ lock.forUpdateTS = fu) then
        some { lock := some none }
      else some {}
    | none => some {}
  | .commit k t c => commitEffect s k t c
  | .rollback k t => rollbackEffect s k t
  | .resolveLock k t c => resolveEffect s k t c
  | .checkTxnStatusWithCleanup k t caller rb =>
    match lockOf s k t with
    | some lock => if lockExpired lock t caller then some (rollbackMark s k t) else some {}
    | none =>
      if getTxnCommitRecord s k t = none ∧ rb then some (rollbackMark s k t) else some {}
  | .cleanup k t =>
    match lockOf s k t with
    | none => some {}
    | some lock =>
      let c := (checkTxnStatus s lock.primary t).commitTS
      if c ≠ 0 then resolveEffect s k t c else rollbackEffect s k t
  | .cleanupModifies k t =>
    match lockOf s k t with
    | none => some {}
    | some lock =>
      let c := (checkTxnStatus s lock.primary t).commitTS
      if c ≠ 0 then resolveEffect s k t c else some (rollbackMark s k t)

structure Leaves (k : Key) (ms : List Modify) (e : Effect) : Prop where
  key : ∀ x ∈ ms, x.key = k
  lock : LastWrite (Modify.lockAt k) ms = e.lock
  record : ∀ ts, LastWrite (Modify.recordAt k ts) ms = e.recordAt ts

def Achieves (k : Key) : Except TxnError (List Modify) → Option Effect → Prop
  | .error _, none => True
  | .ok ms, some e => Leaves k ms e
  | _, _ => False

open Effect

open Leaves

@[simp] theorem achieves_ok (k : Key) (ms : List Modify) (e : Effect) :
    Achieves k (.ok ms) (some e) ↔ Leaves k ms e := Iff.rfl

@[simp] theorem achieves_error (k : Key) (err : TxnError) : Achieves k (.error err) none :=
  trivial

theorem Leaves.nil (k : Key) : Leaves k [] {} := ⟨by simp, rfl, fun _ => rfl⟩

theorem Leaves.unlock (k : Key) : Leaves k [.unlockKey k] { lock := some none } where
  key := by simp [Modify.key]
  lock := by simp [LastWrite.cons, Modify.lockAt]
  record ts := by simp [LastWrite.cons, Modify.recordAt, Effect.recordAt]

theorem putLargeValue_lockAt (m : Mutation) (t : TimeStamp) (k : Key) :
    LastWrite (Modify.lockAt k) (m.putLargeValue t) = none := by
  unfold Mutation.putLargeValue
  split
  · split <;> rfl
  · rfl

theorem putLargeValue_recordAt (m : Mutation) (t : TimeStamp) (k : Key) (ts : TimeStamp) :
    LastWrite (Modify.recordAt k ts) (m.putLargeValue t) = none := by
  unfold Mutation.putLargeValue
  split
  · split <;> rfl
  · rfl

theorem Leaves.putLock (m : Mutation) (lock : Lock) (t : TimeStamp) :
    Leaves m.key (.putLock m.key lock :: m.putLargeValue t)
      { lock := some (some lock.reload) } where
  key x hx := by
    rcases List.mem_cons.mp hx with rfl | hx
    · rfl
    · exact putLargeValue_key hx
  lock := by simp [LastWrite.cons, putLargeValue_lockAt, Modify.lockAt]
  record ts := by
    simp [LastWrite.cons, putLargeValue_recordAt, Modify.recordAt, Effect.recordAt]

variable {cmd : Command} {a : KeyAction} {lock : Lock} {s : Store} {t : TimeStamp} {e : Effect}
  {k : Key}

theorem Leaves.rollback (hl : lockOf s k t = some lock) :
    Leaves k (removeLock k t lock ++ [.putWrite k t (rollbackWrite t)]) (rollbackMark s k t) where
  key x hx := removeLock_key hx
  lock := by
    unfold removeLock
    split <;> simp [LastWrite.cons, Modify.lockAt, rollbackMark, hl]
  record ts := by
    unfold removeLock
    split <;> simp [LastWrite.cons, Modify.recordAt, rollbackMark, Effect.recordAt]

theorem Leaves.rollback_of_none (hl : lockOf s k t = none) :
    Leaves k [.putWrite k t (rollbackWrite t)] (rollbackMark s k t) where
  key := by simp [Modify.key]
  lock := by simp [LastWrite.cons, Modify.lockAt, rollbackMark, hl]
  record ts := by simp [LastWrite.cons, Modify.recordAt, rollbackMark, Effect.recordAt]

theorem lockOf_eq_some :
    lockOf s k t = some lock ↔ (s k).lock = some lock ∧ lock.startTS = t := by
  simp [lockOf, filter_eq_some_iff]

theorem lockOf_eq_none :
    lockOf s k t = none ↔ ∀ lock, (s k).lock = some lock → lock.startTS ≠ t := by
  simp [lockOf, filter_eq_none_iff]

theorem commit_achieves (s : Store) (k : Key) (t c : TimeStamp) :
    Achieves k (Txn.commit s k t c) (commitEffect s k t c) := by
  unfold Txn.commit commitEffect loadLock
  cases hl : (s k).lock with
  | none => simp [lockOf, hl, Achieves]
  | some lock =>
    by_cases ht : lock.startTS = t
    · have hlt : lockOf s k t = some lock := lockOf_eq_some.mpr ⟨hl, ht⟩
      simp only [hlt, ht, ne_eq, not_true_eq_false, if_false]
      split
      · trivial
      · split
        · exact Leaves.unlock k
        · exact ⟨by simp [Modify.key], by simp [LastWrite.cons, Modify.lockAt],
            fun ts => by
              simp [LastWrite.cons, Modify.recordAt, Effect.recordAt, commitWrite, ht]⟩
    · have hlt : lockOf s k t = none := by simp [lockOf, hl, Option.filter, ht]
      simp [hlt, ht, Achieves]

theorem rollback_achieves (s : Store) (k : Key) (t : TimeStamp) :
    Achieves k (Txn.rollback s k t) (rollbackEffect s k t) := by
  unfold Txn.rollback rollbackEffect loadLock
  cases hr : getTxnCommitRecord s k t with
  | some q =>
    dsimp only
    by_cases hw : q.2.writeType = .rollback
    · simpa [hw] using Leaves.nil k
    · simp [hw, Achieves]
  | none =>
    dsimp only
    cases hl : (s k).lock with
    | none => exact Leaves.rollback_of_none (lockOf_eq_none.mpr (by simp [hl]))
    | some lock =>
      by_cases ht : lock.startTS = t
      · simpa [ht] using Leaves.rollback (lockOf_eq_some.mpr ⟨hl, ht⟩)
      · simpa [ht] using Leaves.rollback_of_none (s := s) (lockOf_eq_none.mpr (by simpa [hl]))

theorem resolveLock_achieves (s : Store) (k : Key) (t c : TimeStamp) :
    Achieves k (Txn.resolveLock s k t c) (resolveEffect s k t c) := by
  unfold Txn.resolveLock resolveEffect loadLock
  cases hl : (s k).lock with
  | none => simpa [lockOf, hl] using Leaves.nil k
  | some lock =>
    by_cases ht : lock.startTS = t
    · simp only [lockOf_eq_some.mpr ⟨hl, ht⟩, ht, ne_eq, not_true_eq_false, if_false,
        Option.isNone_some, Bool.false_eq_true]
      split
      · exact commit_achieves s k t c
      · exact rollback_achieves s k t
    · have hlt : lockOf s k t = none := lockOf_eq_none.mpr (by simpa [hl] using ht)
      simpa [ht, hlt] using Leaves.nil k

theorem lockEffect_achieves (s : Store) (m : Mutation) (t : TimeStamp) (conflict : Bool)
    (lock : Lock) (err : Lock → TxnError) : Achieves m.key
      (match loadLock s m.key with
        | some existing => if existing.startTS = t then .ok [] else .error (err existing)
        | none => if conflict then .error .writeConflict
          else .ok (.putLock m.key lock :: m.putLargeValue t))
      (lockEffect s m.key t conflict lock) := by
  unfold lockEffect loadLock
  cases (s m.key).lock with
  | some existing =>
    dsimp only
    split
    · exact nil _
    · trivial
  | none =>
    dsimp only
    split
    · trivial
    · exact putLock m lock t

theorem acquirePessimisticLock_achieves (s : Store) (props : PessimisticLockProps) (k : Key) :
    Achieves k (Txn.acquirePessimisticLock s props k)
      (KeyAction.effect s (.acquirePessimisticLock props k)) := by
  have hput : ∀ lock : Lock, Leaves k [.putLock k lock] { lock := some (some lock.reload) } :=
    fun lock => Leaves.putLock { op := .lock, key := k } lock 0
  rw [Txn.acquirePessimisticLock, KeyAction.effect, loadLock]
  cases (s k).lock with
  | some lock =>
    dsimp only
    by_cases ht : lock.startTS = props.startTS
    · rw [if_pos ht, if_neg (not_not.mpr ht)]
      split
      · exact hput _
      · exact Leaves.nil k
    · simp [ht]
  | none =>
    dsimp only
    split
    · trivial
    · exact hput _

theorem prewritePessimistic_achieves (s : Store) (props : PessimisticPrewriteProps)
    (m : Mutation) : Achieves m.key (Txn.prewritePessimistic s props m)
      (KeyAction.effect s (.prewritePessimistic props m)) := by
  have hput := Leaves.putLock m (props.pessimisticLock m) props.startTS
  rw [Txn.prewritePessimistic, KeyAction.effect, loadLock]
  cases (s m.key).lock with
  | some lock =>
    by_cases ht : lock.startTS = props.startTS
    · by_cases hp : lock.lockType = .pessimistic
      · simp only [ht, hp, ne_eq, not_true_eq_false, if_true, if_false, achieves_ok]
        refine ⟨fun x hx => ?_, ?_, fun ts => ?_⟩
        · rcases List.mem_cons.mp hx with rfl | hx
          · rfl
          · exact hput.key x hx
        · rw [LastWrite.cons, hput.lock]
          rfl
        · rw [LastWrite.cons, hput.record]
          rfl
      · simpa [ht, hp] using Leaves.nil m.key
    · simp [ht]
  | none =>
    by_cases hp : props.isPessimistic
    · simp [hp]
    · by_cases hc : newestConflict s m.key props.startTS
      · simp [hp, hc]
      · simpa [hp, hc] using hput

theorem pessimisticRollback_achieves (s : Store) (k : Key) (t fu : TimeStamp) :
    Achieves k (.ok (pessimisticRollbackKey s t fu k))
      (KeyAction.effect s (.pessimisticRollback k t fu)) := by
  rw [pessimisticRollbackKey, effect, loadLock]
  cases hl : (s k).lock with
  | none => simpa [lockOf, hl] using nil k
  | some lock =>
    by_cases ht : lock.startTS = t
    · simp only [lockOf_eq_some.mpr ⟨hl, ht⟩, ht, ne_eq, not_true_eq_false, if_false]
      by_cases hp : lock.lockType = .pessimistic
      · by_cases hfu : fu = 0 ∨ lock.forUpdateTS = fu
        · have hfu' : ¬(fu ≠ 0 ∧ lock.forUpdateTS ≠ fu) := by tauto
          simpa [hp, hfu, hfu'] using unlock k
        · have hfu' : fu ≠ 0 ∧ lock.forUpdateTS ≠ fu := by tauto
          simpa [hp, hfu'] using nil k
      · simpa [hp] using nil k
    · have hlt : lockOf s k t = none := lockOf_eq_none.mpr (by simpa [hl] using ht)
      simpa [ht, hlt] using nil k

theorem KeyAction.achieves (s : Store) (a : KeyAction) :
    Achieves a.key (a.result s) (a.effect s) := by
  cases a with
  | prewrite props m => exact lockEffect_achieves s m _ _ _ (.keyLocked m.key)
  | prewriteAsyncCommit props m => exact lockEffect_achieves s m _ _ _ fun _ => .keyIsLocked
  | onePC props m =>
    rw [KeyAction.result, KeyAction.effect]
    cases onePCError s props m with
    | some e => trivial
    | none =>
      refine ⟨fun x hx => OnePCProps.modifies_key hx, ?_, fun ts => ?_⟩
      · simp [OnePCProps.modifies, LastWrite.append, putLargeValue_lockAt, LastWrite.cons,
          Modify.lockAt, KeyAction.key]
      · simp [OnePCProps.modifies, LastWrite.append, putLargeValue_recordAt, LastWrite.cons,
          Modify.recordAt, KeyAction.key, Effect.recordAt]
  | acquirePessimisticLock props k => exact acquirePessimisticLock_achieves s props k
  | prewritePessimistic props m => exact prewritePessimistic_achieves s props m
  | pessimisticRollback k t fu => exact pessimisticRollback_achieves s k t fu
  | commit k t c => exact commit_achieves s k t c
  | rollback k t => exact rollback_achieves s k t
  | resolveLock k t c => exact resolveLock_achieves s k t c
  | checkTxnStatusWithCleanup k t caller rb =>
    rw [KeyAction.result, KeyAction.effect, Txn.checkTxnStatusWithCleanup, filter_loadLock]
    cases hl : lockOf s k t with
    | some lock =>
      dsimp only
      split
      · exact Leaves.rollback hl
      · exact Leaves.nil k
    | none =>
      dsimp only
      cases hr : getTxnCommitRecord s k t with
      | some q => simpa [KeyAction.key] using Leaves.nil k
      | none =>
        by_cases hrb : rb
        · simpa [KeyAction.key, hrb] using Leaves.rollback_of_none hl
        · simpa [KeyAction.key, hrb] using Leaves.nil k
  | cleanup k t =>
    rw [KeyAction.result, KeyAction.effect]
    cases hl : lockOf s k t with
    | none => exact Leaves.nil k
    | some lock =>
      dsimp only
      split
      · exact resolveLock_achieves s k t _
      · exact rollback_achieves s k t
  | cleanupModifies k t =>
    rw [KeyAction.result, KeyAction.effect, Storage.cleanupModifies, filter_loadLock]
    cases hl : lockOf s k t with
    | none => exact Leaves.nil k
    | some lock =>
      dsimp only
      split
      · have h := resolveLock_achieves s k t (checkTxnStatus s lock.primary t).commitTS
        cases hr : Txn.resolveLock s k t (checkTxnStatus s lock.primary t).commitTS <;>
          rwa [hr] at h
      · exact Leaves.rollback hl

/-! ### What the effects can be -/

section
variable {s : Store} {k : Key} {t c : TimeStamp} {e : Effect}

theorem lockEffect_eq_some {conflict : Bool} (h : lockEffect s k t conflict lock = some e) :
    (∃ existing, lockOf s k t = some existing ∧ e = {}) ∨
      ((s k).lock = none ∧ conflict = false ∧ e = { lock := some (some lock.reload) }) := by
  unfold lockEffect at h
  cases hl : (s k).lock with
  | some existing =>
    simp only [hl] at h
    obtain ⟨ht, rfl⟩ := of_guard h
    exact Or.inl ⟨existing, lockOf_eq_some.mpr ⟨hl, ht⟩, rfl⟩
  | none =>
    simp only [hl] at h
    by_cases hc : conflict
    · simp [hc] at h
    · exact Or.inr ⟨rfl, by simpa using hc, by simpa [hc] using h.symm⟩

theorem commitEffect_eq_some (h : commitEffect s k t c = some e) :
    ∃ lock, lockOf s k t = some lock ∧ lock.minCommitTS ≤ c ∧ e.lock = some none ∧
      e.record = if lock.lockType = .pessimistic then none
        else some (c, (commitWrite lock).reload) := by
  unfold commitEffect at h
  cases hl : lockOf s k t with
  | none => simp [hl] at h
  | some lock =>
    simp only [hl] at h
    split at h
    · simp at h
    · rename_i hc
      refine ⟨lock, rfl, not_lt.mp hc, ?_⟩
      split at h
      · rename_i hp
        cases h
        exact ⟨rfl, (if_pos hp).symm⟩
      · rename_i hp
        cases h
        exact ⟨rfl, (if_neg hp).symm⟩

theorem rollbackEffect_eq_some (h : rollbackEffect s k t = some e) :
    ((∃ q, getTxnCommitRecord s k t = some q ∧ q.2.writeType = .rollback) ∧ e = {}) ∨
      (getTxnCommitRecord s k t = none ∧ e = rollbackMark s k t) := by
  unfold rollbackEffect at h
  cases hr : getTxnCommitRecord s k t with
  | some q =>
    simp only [hr] at h
    obtain ⟨hw, rfl⟩ := of_guard h
    exact Or.inl ⟨⟨q, rfl, hw⟩, rfl⟩
  | none =>
    simp only [hr, some_inj] at h
    exact Or.inr ⟨rfl, h.symm⟩

theorem resolveEffect_eq_some (h : resolveEffect s k t c = some e) :
    (lockOf s k t = none ∧ e = {}) ∨ ((lockOf s k t).isSome ∧
      (0 < c ∧ commitEffect s k t c = some e ∨ c = 0 ∧ rollbackEffect s k t = some e)) := by
  unfold resolveEffect at h
  cases hl : lockOf s k t with
  | none =>
    rw [hl, isNone_none, if_pos rfl, some_inj] at h
    exact Or.inl ⟨rfl, h.symm⟩
  | some lock =>
    rw [hl, isNone_some, if_neg (by simp)] at h
    refine Or.inr ⟨rfl, ?_⟩
    by_cases hc : 0 < c
    · rw [if_pos hc] at h
      exact Or.inl ⟨hc, h⟩
    · rw [if_neg hc] at h
      exact Or.inr ⟨by grind, h⟩

namespace KeyAction

theorem onePC_eq_some {m : Mutation} {props : OnePCProps} (h : effect s (.onePC props m) = some e) :
    onePCError s props m = none ∧
      e = { record := some (props.commitTS, (props.write m).reload) } := by
  rw [effect] at h
  split at h
  · cases h
  · rename_i herr
    exact ⟨by simpa using herr, (some.inj h).symm⟩

theorem acquirePessimisticLock_eq_some {props : PessimisticLockProps}
    (h : effect s (.acquirePessimisticLock props k) = some e) :
    (∃ lock, (s k).lock = some lock ∧ lock.startTS = props.startTS ∧
      (e = { lock := some (some { lock with forUpdateTS := props.forUpdateTS }.reload) } ∨
        e = {})) ∨ ((s k).lock = none ∧ newestConflict s k props.forUpdateTS = false ∧
      e = { lock := some (some props.lock.reload) }) := by
  rw [effect] at h
  cases hl : (s k).lock with
  | some lock =>
    simp only [hl] at h
    split at h
    · cases h
    · rename_i ht
      refine Or.inl ⟨lock, rfl, not_not.mp ht, ?_⟩
      split at h
      · exact Or.inl (some.inj h).symm
      · exact Or.inr (some.inj h).symm
  | none =>
    simp only [hl] at h
    split at h
    · cases h
    · rename_i hc
      exact Or.inr ⟨rfl, by simpa using hc, (some.inj h).symm⟩

variable {m : Mutation}

theorem prewritePessimistic_eq_some {props : PessimisticPrewriteProps}
    (h : effect s (.prewritePessimistic props m) = some e) :
    (∃ lock, (s m.key).lock = some lock ∧ lock.startTS = props.startTS ∧
      (e = { lock := some (some (props.pessimisticLock m).reload) } ∨ e = {})) ∨
    ((s m.key).lock = none ∧ newestConflict s m.key props.startTS = false ∧
      e = { lock := some (some (props.pessimisticLock m).reload) }) := by
  rw [effect] at h
  cases hl : (s m.key).lock with
  | some lock =>
    simp only [hl] at h
    split at h
    · cases h
    · rename_i ht
      refine Or.inl ⟨lock, rfl, not_not.mp ht, ?_⟩
      split at h
      · exact Or.inl (some.inj h).symm
      · exact Or.inr (some.inj h).symm
  | none =>
    simp only [hl] at h
    split at h
    · cases h
    · rename_i hc
      rw [not_or] at hc
      exact Or.inr ⟨rfl, by simpa using hc.2, (some.inj h).symm⟩

theorem pessimisticRollback_eq_some {fu : TimeStamp}
    (h : effect s (.pessimisticRollback k t fu) = some e) :
    (lockOf s k t ≠ none ∧ e = { lock := some none }) ∨ e = {} := by
  rw [effect] at h
  split at h
  · rename_i lock hl
    split at h
    · exact Or.inl ⟨by rw [hl]; simp, (some.inj h).symm⟩
    · exact Or.inr (some.inj h).symm
  · exact Or.inr (some.inj h).symm

theorem checkTxnStatusWithCleanup_eq_some {caller : TimeStamp} {rb : Bool}
    (h : effect s (.checkTxnStatusWithCleanup k t caller rb) = some e) :
    e = {} ∨ e = rollbackMark s k t ∧
      ((∃ lock, lockOf s k t = some lock) ∨ getTxnCommitRecord s k t = none) := by
  rw [effect] at h
  split at h
  · rename_i lock hl
    split at h
    · exact Or.inr ⟨(some.inj h).symm, Or.inl ⟨lock, hl⟩⟩
    · exact Or.inl (some.inj h).symm
  · split at h
    · rename_i hr
      exact Or.inr ⟨(some.inj h).symm, Or.inr hr.1⟩
    · exact Or.inl (some.inj h).symm

theorem cleanup_eq_some (h : effect s (.cleanup k t) = some e) :
    (lockOf s k t = none ∧ e = {}) ∨ ∃ lock, lockOf s k t = some lock ∧
      ((checkTxnStatus s lock.primary t).commitTS ≠ 0 ∧
        resolveEffect s k t (checkTxnStatus s lock.primary t).commitTS = some e ∨
      (checkTxnStatus s lock.primary t).commitTS = 0 ∧ rollbackEffect s k t = some e) := by
  rw [effect] at h
  cases hl : lockOf s k t with
  | none =>
    simp only [hl] at h
    exact Or.inl ⟨rfl, (some.inj h).symm⟩
  | some lock =>
    simp only [hl] at h
    refine Or.inr ⟨lock, rfl, ?_⟩
    split at h
    · exact Or.inl ⟨‹_›, h⟩
    · exact Or.inr ⟨not_not.mp ‹_›, h⟩

theorem cleanupModifies_eq_some (h : effect s (.cleanupModifies k t) = some e) :
    (lockOf s k t = none ∧ e = {}) ∨ ∃ lock, lockOf s k t = some lock ∧
      ((checkTxnStatus s lock.primary t).commitTS ≠ 0 ∧
        resolveEffect s k t (checkTxnStatus s lock.primary t).commitTS = some e ∨
      (checkTxnStatus s lock.primary t).commitTS = 0 ∧ e = rollbackMark s k t) := by
  rw [effect] at h
  cases hl : lockOf s k t with
  | none =>
    simp only [hl] at h
    exact Or.inl ⟨rfl, (some.inj h).symm⟩
  | some lock =>
    simp only [hl] at h
    refine Or.inr ⟨lock, rfl, ?_⟩
    split at h
    · exact Or.inl ⟨‹_›, h⟩
    · exact Or.inr ⟨not_not.mp ‹_›, (some.inj h).symm⟩

end KeyAction

end

theorem exists_of_checkTxnStatus {p : Key}
    (h : (checkTxnStatus s p t).commitTS ≠ 0) :
    ∃ w, ((checkTxnStatus s p t).commitTS, w) ∈ (s p).writes.entries ∧ w.startTS = t ∧
      w.writeType ≠ .rollback := by
  rw [checkTxnStatus, filter_loadLock] at h ⊢
  cases hl : lockOf s p t with
  | some lock => simp [hl] at h
  | none =>
    rw [hl] at h
    cases hr : getTxnCommitRecord s p t with
    | none => simp [hr] at h
    | some q =>
      obtain ⟨hq, hqt⟩ := mem_of_getTxnCommitRecord hr
      simp only [hr, TxnStatus.ofRecord] at h ⊢
      by_cases hw : q.2.writeType = .rollback
      · simp [hw] at h
      · rw [if_neg hw]
        exact ⟨q.2, hq, hqt, hw⟩

def Command.recordTS (s : Store) : Command → TimeStamp
  | .prewrite1PC _ _ _ c _ => c
  | .commit _ _ c => c
  | .batchRollback _ t => t
  | .resolveLock t c _ => if 0 < c then c else t
  | .checkTxnStatusWithCleanup _ t _ _ => t
  | .cleanup k t | .cleanupModifies k t =>
    match lockOf s k t with
    | some lock =>
      let c := (checkTxnStatus s lock.primary t).commitTS
      if c ≠ 0 then c else t
    | none => 0
  | _ => 0

def KeyAction.isLocking : KeyAction → Bool
  | .prewrite _ _ => true
  | .prewriteAsyncCommit _ _ => true
  | .acquirePessimisticLock _ _ => true
  | .prewritePessimistic _ _ => true
  | _ => false

def Command.isLocking : Command → Bool
  | .prewrite _ _ _ _ => true
  | .prewriteAsyncCommit _ _ _ _ _ _ => true
  | .pessimisticLock _ _ _ _ _ => true
  | .prewritePessimistic _ _ => true
  | _ => false

theorem Command.isLocking_of_mem (ha : a ∈ cmd.actions) : a.isLocking = cmd.isLocking := by
  cases cmd <;> simp only [actions, List.mem_map, List.mem_singleton] at ha
  all_goals
    obtain ⟨_, -, rfl⟩ := ha
    rfl

theorem KeyAction.record_eq_none
    (ha : a.isLocking = true) (he : a.effect s = some e) : e.record = none := by
  have hlock : ∀ {k t conflict lock}, lockEffect s k t conflict lock = some e →
      e.record = none := by
    intro k t conflict lock h
    rcases lockEffect_eq_some h with ⟨_, _, rfl⟩ | ⟨_, _, rfl⟩ <;> rfl
  cases a with
  | prewrite props m | prewriteAsyncCommit props m => exact hlock he
  | acquirePessimisticLock props k =>
    obtain ⟨_, _, _, rfl | rfl⟩ | ⟨_, _, rfl⟩ := acquirePessimisticLock_eq_some he <;> rfl
  | prewritePessimistic props m =>
    obtain ⟨_, _, _, rfl | rfl⟩ | ⟨_, _, rfl⟩ := prewritePessimistic_eq_some he <;> rfl
  | _ => exact absurd ha (by simp [isLocking])

structure Concludes (ts : TimeStamp) (e : Effect) : Prop where
  lock : ∀ lock, e.lock ≠ some (some lock)
  record : ∀ c w, e.record = some (c, w) → c = ts

section
variable {s : Store} {k : Key} {t c : TimeStamp} {e : Effect}

theorem Concludes.keep {ts : TimeStamp} : Concludes ts {} := ⟨by simp, by simp⟩

theorem Concludes.mark : Concludes t (rollbackMark s k t) where
  lock := by simp [rollbackMark]
  record c w h := (Prod.mk.inj (some.inj h)).1.symm

theorem Concludes.commit (h : commitEffect s k t c = some e) : Concludes c e := by
  obtain ⟨lock, -, -, hlock, hrec⟩ := commitEffect_eq_some h
  refine ⟨by simp [hlock], fun c' w hw => ?_⟩
  rw [hrec] at hw
  split at hw
  · cases hw
  · exact (Prod.mk.inj (some.inj hw)).1.symm

theorem Concludes.rollback (h : rollbackEffect s k t = some e) : Concludes t e := by
  rcases rollbackEffect_eq_some h with ⟨-, rfl⟩ | ⟨-, rfl⟩
  · exact .keep
  · exact .mark

theorem Concludes.resolve (h : resolveEffect s k t c = some e) :
    Concludes (if 0 < c then c else t) e := by
  rcases resolveEffect_eq_some h with ⟨-, rfl⟩ | ⟨-, ⟨hc, h⟩ | ⟨rfl, h⟩⟩
  · exact .keep
  · rw [if_pos hc]
    exact .commit h
  · rw [if_neg (lt_irrefl _)]
    exact .rollback (by assumption)

end

theorem KeyAction.concludes
    (hcmd : cmd.isLocking = false) (ha : a ∈ cmd.actions) (he : a.effect s = some e) :
    Concludes (cmd.recordTS s) e := by
  have resolved : ∀ {k t c}, c ≠ 0 → resolveEffect s k t c = some e →
      Concludes (if c ≠ 0 then c else t) e := by
    intro k t c hc h
    have hpos : 0 < c := by grind
    simpa only [if_pos hc, if_pos hpos] using Concludes.resolve h
  cases cmd with
  | prewrite ms p t ttl | prewriteAsyncCommit ms p t ttl secs maxTS
  | pessimisticLock keys p t fu ttl | prewritePessimistic props m =>
    exact absurd hcmd (by simp [Command.isLocking])
  | prewrite1PC ms p t c ttl =>
    obtain ⟨m, -, rfl⟩ := List.mem_map.mp ha
    obtain ⟨-, rfl⟩ := onePC_eq_some he
    exact ⟨by simp, fun c w h => (Prod.mk.inj (Option.some.inj h)).1.symm⟩
  | pessimisticRollback keys t fu =>
    obtain ⟨k, -, rfl⟩ := List.mem_map.mp ha
    obtain ⟨-, rfl⟩ | rfl := pessimisticRollback_eq_some he
    · exact ⟨by simp, by simp⟩
    · exact .keep
  | commit keys t c =>
    obtain ⟨k, -, rfl⟩ := List.mem_map.mp ha
    exact .commit he
  | batchRollback keys t =>
    obtain ⟨k, -, rfl⟩ := List.mem_map.mp ha
    exact .rollback he
  | resolveLock t c keys =>
    obtain ⟨k, -, rfl⟩ := List.mem_map.mp ha
    exact .resolve he
  | checkTxnStatusWithCleanup k t caller rb =>
    obtain rfl := List.mem_singleton.mp ha
    obtain rfl | ⟨rfl, -⟩ := checkTxnStatusWithCleanup_eq_some he
    · exact .keep
    · exact .mark
  | cleanup k t =>
    obtain rfl := List.mem_singleton.mp ha
    rw [Command.recordTS]
    obtain ⟨hl, rfl⟩ | ⟨lock, hl, ⟨hc, he⟩ | ⟨hc, he⟩⟩ := cleanup_eq_some he
    · exact .keep
    · rw [hl]
      exact resolved hc he
    · rw [hl]
      simpa only [hc, ne_eq, not_true_eq_false, if_false] using Concludes.rollback he
  | cleanupModifies k t =>
    obtain rfl := List.mem_singleton.mp ha
    rw [Command.recordTS]
    obtain ⟨hl, rfl⟩ | ⟨lock, hl, ⟨hc, he⟩ | ⟨hc, rfl⟩⟩ := cleanupModifies_eq_some he
    · exact .keep
    · rw [hl]
      exact resolved hc he
    · rw [hl]
      simpa only [hc, ne_eq, not_true_eq_false, if_false] using Concludes.mark

/-! ### The store after a command -/

def KeyAction.lockOn (s : Store) (k : Key) (a : KeyAction) : Option (Option Lock) :=
  if a.key = k then (a.effect s).bind Effect.lock else none

def KeyAction.recordOn (s : Store) (k : Key) (ts : TimeStamp) (a : KeyAction) :
    Option (Option Write) :=
  if a.key = k then (a.effect s).bind fun e => e.recordAt ts else none

theorem KeyAction.recordOn_eq_some {ts : TimeStamp} {x : Option Write} :
    a.recordOn s k ts = some x ↔
      a.key = k ∧ ∃ e w, a.effect s = some e ∧ e.record = some (ts, w) ∧ x = some w := by
  unfold recordOn
  constructor
  · intro hx
    obtain ⟨hk, hx⟩ := Option.ite_none_right_eq_some.mp hx
    obtain ⟨e, he, hx⟩ := Option.bind_eq_some_iff.mp hx
    unfold Effect.recordAt at hx
    split at hx
    · rename_i c w hw
      obtain ⟨rfl, rfl⟩ := of_guard hx
      exact ⟨hk, e, w, he, hw, rfl⟩
    · cases hx
  · rintro ⟨hk, e, w, he, hw, rfl⟩
    simp [hk, he, hw, Effect.recordAt]

def Accepted (s : Store) (cmd : Command) : Prop :=
  ∀ a ∈ cmd.actions, (a.effect s).isSome

instance (s : Store) (cmd : Command) : Decidable (Accepted s cmd) :=
  inferInstanceAs (Decidable (∀ a ∈ _, _))

theorem lastWrite_result {β : Type*} {ms : List Modify}
    {f : Modify → Option β} {g : Effect → Option β} (hok : a.result s = .ok ms)
    (hf : ∀ x, x.key ≠ k → f x = none)
    (hg : ∀ e, a.key = k → Leaves k ms e → LastWrite f ms = g e) :
    LastWrite f ms = if a.key = k then (a.effect s).bind g else none := by
  have hach := a.achieves s
  rw [hok] at hach
  cases he : a.effect s with
  | none => simp [he, Achieves] at hach
  | some e =>
    rw [he, achieves_ok] at hach
    by_cases hk : a.key = k
    · rw [if_pos hk]
      exact hg e hk (hk ▸ hach)
    · rw [if_neg hk, eq_none_iff]
      intro x hx
      exact hf x (hach.key x hx ▸ hk)

theorem accepted_iff :
    Accepted s cmd ↔ ∃ ms, runAll (KeyAction.result s) cmd.actions = .ok ms := by
  have heff : ∀ a : KeyAction, (a.effect s).isSome ↔ ∃ ms, a.result s = .ok ms := by
    intro a
    have hach := a.achieves s
    cases hr : a.result s <;> cases he : a.effect s <;> simp_all [Achieves]
  constructor
  · intro h
    cases hr : runAll (result s) cmd.actions with
    | ok ms => exact ⟨ms, rfl⟩
    | error e =>
      obtain ⟨a, ha, hae⟩ := runAll_error hr
      obtain ⟨ms, hms⟩ := (heff a).mp (h a ha)
      exact absurd (hae.symm.trans hms) (by simp)
  · rintro ⟨ms, hms⟩ a ha
    exact (heff a).mpr ⟨_, (runAll_ok hms).1 a ha⟩

theorem run_refused (h : ¬Accepted s cmd) : run s cmd = s := by
  rw [run_eq]
  cases hr : runAll (result s) cmd.actions with
  | ok ms => exact absurd (accepted_iff.mpr ⟨ms, hr⟩) h
  | error e => rfl

theorem run_accepted (h : Accepted s cmd) :
    (∀ a ∈ cmd.actions, a.result s = .ok (modifiesOf (a.result s))) ∧
      run s cmd = applyModifies s (cmd.actions.flatMap fun a => modifiesOf (a.result s)) := by
  obtain ⟨ms, hms⟩ := accepted_iff.mp h
  obtain ⟨hok, rfl⟩ := runAll_ok hms
  rw [run_eq, hms]
  exact ⟨hok, rfl⟩

theorem run_lock (h : Accepted s cmd) (k : Key) : (run s cmd k).lock =
      (LastWrite (KeyAction.lockOn s k) cmd.actions).getD (s k).lock := by
  obtain ⟨hok, hrun⟩ := run_accepted h
  rw [hrun, applyModifies_lock, LastWrite.flatMap]
  congr 1
  refine LastWrite.congr fun a ha => lastWrite_result (hok a ha) (fun x hx => ?_)
    fun e _ he => he.lock
  cases x <;> simp_all [Modify.lockAt, Modify.key]

theorem run_get (h : Accepted s cmd) (k : Key) (ts : TimeStamp) :
    (run s cmd k).writes.get ts =
      (LastWrite (KeyAction.recordOn s k ts) cmd.actions).getD ((s k).writes.get ts) := by
  obtain ⟨hok, hrun⟩ := run_accepted h
  rw [hrun, applyModifies_get, LastWrite.flatMap]
  congr 1
  refine LastWrite.congr fun a ha => lastWrite_result (hok a ha) (fun x hx => ?_)
    fun e _ he => he.record ts
  cases x <;> simp_all [Modify.recordAt, Modify.key]

theorem mem_run {q : TimeStamp × Write}
    (h : Accepted s cmd) (hq : q ∈ (run s cmd k).writes.entries) : q ∈ (s k).writes.entries ∨
      ∃ a ∈ cmd.actions, a.key = k ∧ ∃ e, a.effect s = some e ∧ e.record = some q := by
  have hget : (run s cmd k).writes.get q.1 = some q.2 := Versions.get_eq_some_iff.mpr hq
  rw [run_get h] at hget
  cases hlast : LastWrite (recordOn s k q.1) cmd.actions with
  | none =>
    rw [hlast, getD_none] at hget
    exact Or.inl (Versions.get_eq_some_iff.mp hget)
  | some x =>
    rw [hlast, getD_some] at hget
    subst hget
    obtain ⟨a, ha, hx⟩ := exists_of_eq_some hlast
    obtain ⟨hk, e, w, he, hw, hx⟩ := recordOn_eq_some.mp hx
    exact Or.inr ⟨a, ha, hk, e, he, by rw [hw, ← some.inj hx]⟩

theorem lock_run (h : Accepted s cmd) (hl : (run s cmd k).lock = some lock) :
    ((s k).lock = some lock ∧
        ∀ a ∈ cmd.actions, a.key = k → ∀ e, a.effect s = some e → e.lock = none) ∨
      ∃ a ∈ cmd.actions, a.key = k ∧
        ∃ e, a.effect s = some e ∧ e.lock = some (some lock) := by
  rw [run_lock h] at hl
  cases hlast : LastWrite (lockOn s k) cmd.actions with
  | none =>
    rw [hlast, getD_none] at hl
    refine Or.inl ⟨hl, fun a ha hk e he => ?_⟩
    have hnone := eq_none_iff.mp hlast a ha
    rwa [lockOn, if_pos hk, he, bind_some] at hnone
  | some x =>
    rw [hlast, getD_some] at hl
    subst hl
    obtain ⟨a, ha, hx⟩ := exists_of_eq_some hlast
    obtain ⟨hk, hx⟩ := ite_none_right_eq_some.mp hx
    obtain ⟨e, he, hx⟩ := bind_eq_some_iff.mp hx
    exact Or.inr ⟨a, ha, hk, e, he, hx⟩

end Storage
