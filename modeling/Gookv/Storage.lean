/-
The commands of the transaction storage (`internal/server/storage.go`).

The latches make a command atomic: the model runs it in one step on the store.
-/
import Gookv.Pessimistic

open Txntypes Mvcc Txn

namespace Storage

open List

theorem applyModifies_flatMap {α : Type*} {f : α → List Modify} {key : α → Key}
    {as : List α} (s : Store) (hn : (as.map key).Nodup)
    (hkey : ∀ a ∈ as, ∀ x ∈ f a, x.key = key a) :
    (∀ a ∈ as, applyModifies s (as.flatMap f) (key a) = (f a).foldl Row.apply (s (key a))) ∧
      ∀ k, k ∉ as.map key → applyModifies s (as.flatMap f) k = s k := by
  constructor
  · induction as with
    | nil => simp
    | cons a as ih =>
      rw [map_cons, nodup_cons] at hn
      have hother : ∀ k, k ≠ key a → ((f a).filter fun x => x.key = k) = [] := by
        intro k hk
        rw [filter_eq_nil_iff]
        intro x hx
        simpa [hkey a (by simp) x hx] using hk.symm
      intro b hb
      rw [flatMap_cons, applyModifies_eq, filter_append, foldl_append]
      rcases mem_cons.mp hb with rfl | hb
      · have hrest : ((as.flatMap f).filter fun x => x.key = key b) = [] := by
          rw [filter_eq_nil_iff]
          intro x hx
          obtain ⟨a, ha, hxa⟩ := mem_flatMap.mp hx
          have hne : key a ≠ key b := fun heq =>
            hn.1 (heq ▸ mem_map_of_mem ha)
          simpa [hkey a (mem_cons_of_mem _ ha) x hxa] using hne
        have hall : ((f b).filter fun x => x.key = key b) = f b :=
          filter_eq_self.mpr fun x hx => by simpa using hkey b (by simp) x hx
        rw [hrest, hall, foldl_nil]
      · have hne : key b ≠ key a := fun heq => hn.1 (heq ▸ mem_map_of_mem hb)
        rw [hother _ hne, foldl_nil, ← applyModifies_eq]
        exact ih hn.2 (fun a ha => hkey a (mem_cons_of_mem _ ha)) b hb
  · intro k hk
    refine applyModifies_of_forall_ne fun x hx hxk => hk ?_
    obtain ⟨a, ha, hxa⟩ := mem_flatMap.mp hx
    rw [← hxk, hkey a ha x hxa]
    exact mem_map_of_mem ha

/-! ### The commands -/

def runAll {α : Type*} (action : α → Except TxnError (List Modify)) :
    List α → Except TxnError (List Modify)
  | [] => .ok []
  | a :: as =>
    match action a with
    | .error e => .error e
    | .ok modifies =>
      match runAll action as with
      | .error e => .error e
      | .ok rest => .ok (modifies ++ rest)

def errorOf : Except TxnError (List Modify) → Option TxnError
  | .error e => some e
  | .ok _ => none

def modifiesOf : Except TxnError (List Modify) → List Modify
  | .error _ => []
  | .ok modifies => modifies

def runEach {α : Type*} (s : Store) (action : α → Except TxnError (List Modify))
    (as : List α) : List (Option TxnError) × Store :=
  let errs := as.map fun a => errorOf (action a)
  if errs.any Option.isSome then (errs, s)
  else (errs, applyModifies s (as.flatMap fun a => modifiesOf (action a)))

def finish (s : Store) : Except TxnError (List Modify) → Option TxnError × Store
  | .error e => (some e, s)
  | .ok modifies => (none, applyModifies s modifies)

def prewrite (s : Store) (mutations : List Mutation) (primary : Key) (startTS : TimeStamp)
    (lockTTL : UInt64) : List (Option TxnError) × Store :=
  runEach s (fun m => Txn.prewrite s
    { startTS := startTS, primary := primary, lockTTL := lockTTL,
      isPrimary := m.key = primary } m) mutations

def prewriteAsyncCommit (s : Store) (mutations : List Mutation) (primary : Key)
    (startTS : TimeStamp) (lockTTL : UInt64) (secondaries : List Key)
    (maxCommitTS : TimeStamp) : List (Option TxnError) × TimeStamp × Store :=
  let (errs, s') := runEach s (fun m => Txn.prewriteAsyncCommit s
    { startTS := startTS, primary := primary, lockTTL := lockTTL,
      isPrimary := m.key = primary, useAsyncCommit := true, secondaries := secondaries,
      maxCommitTS := maxCommitTS } m) mutations
  (errs, if errs.any Option.isSome then 0 else minCommitTS startTS maxCommitTS, s')

def prewrite1PC (s : Store) (mutations : List Mutation) (primary : Key)
    (startTS commitTS : TimeStamp) (lockTTL : UInt64) :
    List (Option TxnError) × TimeStamp × Store :=
  let (errs, modifies) := prewriteAndCommit1PC s
    { startTS := startTS, commitTS := commitTS, primary := primary, lockTTL := lockTTL } mutations
  if errs.any Option.isSome then (errs, 0, s)
  else (errs, commitTS, applyModifies s modifies)

def pessimisticLock (s : Store) (keys : List Key) (primary : Key)
    (startTS forUpdateTS : TimeStamp) (lockTTL : UInt64) : List (Option TxnError) × Store :=
  runEach s (acquirePessimisticLock s
    { startTS := startTS, forUpdateTS := forUpdateTS, primary := primary,
      lockTTL := lockTTL }) keys

def pessimisticRollbackKeys (s : Store) (keys : List Key) (startTS forUpdateTS : TimeStamp) :
    Store :=
  applyModifies s (pessimisticRollback s keys startTS forUpdateTS)

def commit (s : Store) (keys : List Key) (startTS commitTS : TimeStamp) :
    Option TxnError × Store :=
  finish s (runAll (fun key => Txn.commit s key startTS commitTS) keys)

def batchRollback (s : Store) (keys : List Key) (startTS : TimeStamp) :
    Option TxnError × Store :=
  finish s (runAll (fun key => Txn.rollback s key startTS) keys)

def resolveLock (s : Store) (startTS commitTS : TimeStamp) (keys : List Key) :
    Option TxnError × Store :=
  finish s (runAll (fun key => Txn.resolveLock s key startTS commitTS) keys)

def checkTxnStatusWithCleanup (s : Store) (primaryKey : Key)
    (startTS callerStartTS : TimeStamp) (rollbackIfNotExist : Bool) : TxnStatus × Store :=
  let (status, modifies) :=
    Txn.checkTxnStatusWithCleanup s primaryKey startTS callerStartTS rollbackIfNotExist
  (status, applyModifies s modifies)

def cleanup (s : Store) (key : Key) (startTS : TimeStamp) :
    TimeStamp × Option TxnError × Store :=
  let status := checkTxnStatus s key startTS
  if status.commitTS ≠ 0 then (status.commitTS, none, s)
  else if status.isRolledBack then (0, none, s)
  else
    match (loadLock s key).filter fun lock => lock.startTS = startTS with
    | none => (0, none, s)
    | some keyLock =>
      let primaryStatus := checkTxnStatus s keyLock.primary startTS
      if primaryStatus.commitTS ≠ 0 then
        match Txn.resolveLock s key startTS primaryStatus.commitTS with
        | .error e => (0, some e, s)
        | .ok modifies => (primaryStatus.commitTS, none, applyModifies s modifies)
      else
        -- also when the primary is still locked
        match Txn.rollback s key startTS with
        | .error e => (0, some e, s)
        | .ok modifies => (0, none, applyModifies s modifies)

/-- `Cleanup` for a replicated store: the operations are proposed instead of written. -/
def cleanupModifies (s : Store) (key : Key) (startTS : TimeStamp) :
    Except TxnError (TimeStamp × List Modify) :=
  match (loadLock s key).filter fun lock => lock.startTS = startTS with
  | none => .ok ((checkTxnStatus s key startTS).commitTS, [])
  | some keyLock =>
    let primaryStatus := checkTxnStatus s keyLock.primary startTS
    if primaryStatus.commitTS ≠ 0 then
      match Txn.resolveLock s key startTS primaryStatus.commitTS with
      | .error e => .error e
      | .ok modifies => .ok (primaryStatus.commitTS, modifies)
    else
      .ok (0, removeLock key startTS keyLock ++ [.putWrite key startTS (rollbackWrite startTS)])

end Storage
