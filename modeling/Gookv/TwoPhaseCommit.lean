/-
Two-phase commit over an unreliable network.

The clients follow `execute` of `pkg/client/committer.go` and `resolveSingleLock` of
`lock_resolver.go`; every request ever sent stays deliverable, so it may be delayed, lost or
repeated.  `step` is one action of the system, `Torn` a transaction with a commit record on
one key and a rollback record on another.  `torn_reachable` is a run into such a state.
-/
import Gookv.StepSystem
import Gookv.StorageSpec

open Txntypes Mvcc Txn

namespace Committer

/-- `CommitVersion` of the response of `KvCheckTxnStatus`. -/
def commitVersion (x : TxnStatus) : TimeStamp := if x.isLocked ∧ x.lock.isSome then 0 else x.commitTS

/-- `LockTtl` of the response of `KvCheckTxnStatus`. -/
def lockTtl (x : TxnStatus) : UInt64 := if x.isLocked then (x.lock.map (·.ttl)).getD 0 else 0

end Committer

namespace TwoPhaseCommit

open Committer (commitVersion lockTtl)

structure TxnSpec where
  primary : Key
  mutations : List Mutation
  lockTTL : UInt64
  useAsyncCommit : Bool := false
  nodup : (mutations.map (·.key)).Nodup
  primary_mem : primary ∈ mutations.map (·.key)

def TxnSpec.keys (x : TxnSpec) : List Key := x.mutations.map (·.key)

inductive Phase
  | idle
  | prewriting
  | committing (commitTS : TimeStamp)
  | aborted
  deriving DecidableEq

/-- A request; `checkTxnStatus` is sent by those who met a lock, `checkPrimaryStatus` by the
committer. -/
inductive Request
  | prewrite (startTS : TimeStamp) (mutations : List Mutation) (maxCommitTS : TimeStamp)
  | commit (startTS : TimeStamp) (keys : List Key) (commitTS : TimeStamp)
  | batchRollback (startTS : TimeStamp) (keys : List Key)
  | checkTxnStatus (startTS callerStartTS : TimeStamp) (rollbackIfNotExist : Bool)
  | checkPrimaryStatus (startTS : TimeStamp)
  | resolveLock (startTS : TimeStamp) (keys : List Key) (commitTS : TimeStamp)
  deriving DecidableEq

inductive Reply
  | errors (errs : List (Option TxnError))
  | error (e : Option TxnError)
  | status (status : TxnStatus)
  deriving DecidableEq

structure State where
  store : Store
  now : TimeStamp
  phase : TimeStamp → Phase
  sent : List Request
  replies : List (Request × Reply)

inductive Action
  | begin (startTS : TimeStamp)
  | send (req : Request)
  | deliver (req : Request)
  | getCommitTS (startTS commitTS : TimeStamp)
  | abort (startTS : TimeStamp)

variable (txns : TimeStamp → TxnSpec)

def execute (s : Store) : Request → Reply × Store
  | .prewrite t ms maxCommitTS =>
    let x := txns t
    if x.useAsyncCommit ∧ isAsyncCommitEligible ms 0 then
      let (errs, _, s') := Storage.prewriteAsyncCommit s ms x.primary t x.lockTTL
        (x.keys.filter (· ≠ x.primary)) maxCommitTS
      (.errors errs, s')
    else
      let (errs, s') := Storage.prewrite s ms x.primary t x.lockTTL
      (.errors errs, s')
  | .commit t keys c =>
    let (e, s') := Storage.commit s keys t c
    (.error e, s')
  | .batchRollback t keys =>
    let (e, s') := Storage.batchRollback s keys t
    (.error e, s')
  | .checkTxnStatus t caller rb =>
    let (st, s') := Storage.checkTxnStatusWithCleanup s (txns t).primary t caller rb
    (.status st, s')
  | .checkPrimaryStatus t =>
    let (st, s') := Storage.checkTxnStatusWithCleanup s (txns t).primary t 0 false
    (.status st, s')
  | .resolveLock t keys c =>
    let (e, s') := Storage.resolveLock s t c keys
    (.error e, s')

def State.answered (s : State) (req : Request) (result : Reply × Store) : State :=
  { s with store := result.2, replies := (req, result.1) :: s.replies }

def acked (s : State) (t : TimeStamp) (m : Mutation) : Bool :=
  s.replies.any fun
    | (.prewrite t' ms _, .errors errs) => t' = t ∧ m ∈ ms ∧ !errs.any Option.isSome
    | _ => false

def primaryCommitted (s : State) (t : TimeStamp) : Bool :=
  s.replies.any fun
    | (.commit t' keys _, .error none) => t' = t ∧ (txns t).primary ∈ keys
    | (.checkPrimaryStatus t', .status st) => t' = t ∧ commitVersion st ≠ 0
    | _ => false

/-- The check answered neither `primaryCommitted` nor `primaryStillLocked`; a lock without a
TTL counts as no lock. -/
def primaryNotCommitted (s : State) (t : TimeStamp) : Bool :=
  s.replies.any fun
    | (.checkPrimaryStatus t', .status st) => t' = t ∧ commitVersion st = 0 ∧ ¬ 0 < lockTtl st
    | _ => false

/-- A check reported a commit at `c`, or a rollback for `c = 0`. -/
def reported (s : State) (t c : TimeStamp) : Bool :=
  s.replies.any fun
    | (.checkTxnStatus t' _ _, .status st) =>
      t' = t ∧ ((0 < c ∧ st.commitTS = c) ∨ (c = 0 ∧ st.isRolledBack = true))
    | _ => false

def maySend (s : State) : Request → Bool
  | .prewrite t ms _ =>
    s.phase t = .prewriting ∧ (∀ m ∈ ms, m ∈ (txns t).mutations) ∧ (ms.map (·.key)).Nodup
  | .commit t keys c =>
    s.phase t = .committing c ∧ (keys = [(txns t).primary] ∨
      primaryCommitted txns s t ∧ (∀ k ∈ keys, k ∈ (txns t).keys) ∧ keys.Nodup)
  | .batchRollback t keys =>
    (s.phase t = .aborted ∨ primaryNotCommitted s t) ∧
      (∀ k ∈ keys, k ∈ (txns t).keys) ∧ keys.Nodup
  | .checkTxnStatus t _ _ => s.phase t ≠ .idle
  | .checkPrimaryStatus t =>
    match s.phase t with
    | .committing _ => true
    | _ => false
  | .resolveLock t keys c => reported s t c ∧ keys ≠ [] ∧ keys.Nodup

def step (s : State) : Action → Option State
  | .begin t =>
    if s.phase t = .idle ∧ s.now < t then
      some { s with now := t, phase := Function.update s.phase t .prewriting }
    else none
  | .send req =>
    if maySend txns s req then some { s with sent := req :: s.sent } else none
  | .deliver req =>
    if req ∈ s.sent then some (s.answered req (execute txns s.store req)) else none
  | .getCommitTS t c =>
    if s.phase t = .prewriting ∧ s.now < c ∧ ∀ m ∈ (txns t).mutations, acked s t m then
      some { s with now := c, phase := Function.update s.phase t (.committing c) }
    else none
  | .abort t =>
    if s.phase t = .prewriting then
      some { s with phase := Function.update s.phase t .aborted }
    else none

def system : StepSystem State Action where
  start :=
    { store := Store.empty, now := 0, phase := fun _ => .idle, sent := [], replies := [] }
  step := step txns

def Torn (s : State) : Prop :=
  ∃ t, ∃ k₁ ∈ (txns t).keys, ∃ k₂ ∈ (txns t).keys, k₁ ≠ k₂ ∧
    ∃ q₁ ∈ (s.store k₁).writes.entries, ∃ q₂ ∈ (s.store k₂).writes.entries,
      q₁.2.startTS = t ∧ q₁.2.writeType ≠ .rollback ∧
      q₂.2.startTS = t ∧ q₂.2.writeType = .rollback

/-- No prewrite locks a key that already has a record of its own transaction. -/
def NoLatePrewrite (s : State) : Action → Prop
  | .deliver (.prewrite t ms _) => Storage.NoLateLock s.store t (ms.map (·.key))
  | _ => True

instance (s : State) : (a : Action) → Decidable (NoLatePrewrite s a)
  | .deliver (.prewrite _ _ _) => inferInstanceAs (Decidable (Storage.NoLateLock _ _ _))
  | .deliver (.commit _ _ _) | .deliver (.batchRollback _ _) | .deliver (.checkTxnStatus _ _ _)
  | .deliver (.checkPrimaryStatus _) | .deliver (.resolveLock _ _ _) | .begin _ | .send _
  | .getCommitTS _ _ | .abort _ => inferInstanceAs (Decidable True)

/-- No check of a primary finds the lock of its transaction with a TTL of 0. -/
def LockShown (s : State) : Action → Prop
  | .deliver (.checkPrimaryStatus t) =>
    ∀ lock ∈ (s.store (txns t).primary).lock, lock.startTS = t → 0 < lock.ttl
  | _ => True

instance (s : State) : (a : Action) → Decidable (LockShown txns s a)
  | .deliver (.checkPrimaryStatus _) => inferInstanceAs (Decidable (∀ lock ∈ _, _))
  | .deliver (.prewrite _ _ _) | .deliver (.commit _ _ _) | .deliver (.batchRollback _ _)
  | .deliver (.checkTxnStatus _ _ _) | .deliver (.resolveLock _ _ _) | .begin _ | .send _
  | .getCommitTS _ _ | .abort _ => inferInstanceAs (Decidable True)

/-- A step that keeps transactions whole. -/
def Orderly (s : State) (a : Action) : Prop := NoLatePrewrite s a ∧ LockShown txns s a

instance (s : State) (a : Action) : Decidable (Orderly txns s a) :=
  inferInstanceAs (Decidable (_ ∧ _))

/-! ### A torn transaction -/

def twoPuts : TxnSpec where
  primary := [1]
  mutations := [{ op := .put, key := [1], value := some [7] },
    { op := .put, key := [2], value := some [8] }]
  lockTTL := 3000
  nodup := by decide
  primary_mem := by decide

def tornRun : List Action :=
  [.begin 1, .send (.prewrite 1 twoPuts.mutations 0), .deliver (.prewrite 1 twoPuts.mutations 0),
   .getCommitTS 1 2, .send (.commit 1 [[1]] 2),
   .send (.checkTxnStatus 1 786432000 true), .deliver (.checkTxnStatus 1 786432000 true),
   .send (.resolveLock 1 [[2]] 0), .deliver (.resolveLock 1 [[2]] 0),
   .deliver (.prewrite 1 twoPuts.mutations 0), .deliver (.commit 1 [[1]] 2)]

theorem torn_reachable : ∃ s, (system fun _ => twoPuts).Reachable s ∧
    Torn (fun _ => twoPuts) s := by
  have hrun : ∃ s, (system fun _ => twoPuts).runFrom (system fun _ => twoPuts).start tornRun =
      some s ∧ (2, ⟨.put, 1, some [7], {}⟩) ∈ (s.store [1]).writes.entries ∧
      (1, ⟨.rollback, 1, none, {}⟩) ∈ (s.store [2]).writes.entries :=
    ⟨_, rfl, by decide, by decide⟩
  obtain ⟨s, hs, h₁, h₂⟩ := hrun
  exact ⟨s, StepSystem.reachable_of_run .start hs, 1, [1], by decide, [2], by decide,
    by decide, _, h₁, _, h₂, by decide⟩

end TwoPhaseCommit
