/-
The client's committer (`pkg/client/committer.go`) over an unreliable network.
-/
import Gookv.TwoPhaseCommit

open Txntypes Mvcc Txn

namespace Committer

open TwoPhaseCommit (TxnSpec)

structure Spec extends TxnSpec where
  try1PC : Bool := false
  region : Key → ℕ := fun _ => 1

namespace Spec

def regions (x : Spec) : List ℕ := (x.mutations.map fun m => x.region m.key).dedup

def group (x : Spec) (r : ℕ) : List Mutation := x.mutations.filter fun m => x.region m.key = r

def primaryRegion (x : Spec) : ℕ := x.region x.primary

def tryOnePC (x : Spec) (r : ℕ) : Bool := x.try1PC ∧ x.mutations.length = (x.group r).length

end Spec

inductive Verdict
  | ok
  | error (commitStatusUnknown : Bool)
  deriving DecidableEq

inductive Stage
  | idle
  | prewriting (done : List ℕ)
  | committingPrimary
  | checkingPrimary
  | committingSecondaries
  | rollingBack
  | returned (verdict : Verdict)
  deriving DecidableEq

structure Client where
  stage : Stage := .idle
  commitTS : TimeStamp := 0
  deriving DecidableEq

inductive Request
  | kv (req : TwoPhaseCommit.Request)
  | onePC (startTS maxCommitTS : TimeStamp)
  deriving DecidableEq

inductive Reply
  | kv (reply : TwoPhaseCommit.Reply)
  | onePC (errs : List (Option TxnError)) (onePcCommitTS : TimeStamp)
  deriving DecidableEq

structure State where
  store : Store
  now : TimeStamp
  client : TimeStamp → Client
  sent : List Request
  replies : List (Request × Reply)

inductive ClientAction
  | prewriteRegion (region : ℕ) (maxCommitTS : TimeStamp)
  | prewriteAcked (region : ℕ) (onePcCommitTS : TimeStamp)
  | prewriteFailed
  | getTS (ts : TimeStamp)
  | getTSFailed
  | commitPrimary
  | commitPrimaryAcked
  | commitPrimaryFailed
  | checkPrimary
  | checkPrimaryReplied (status : TxnStatus)
  | checkPrimaryFailed
  | commitSecondaries (keys : List Key)
  | rollback (keys : List Key)
  | finish
  deriving DecidableEq

inductive Action
  | begin (t : TimeStamp)
  | client (t : TimeStamp) (a : ClientAction)
  | checkTxnStatus (t callerStartTS : TimeStamp) (rollbackIfNotExist : Bool)
  | resolveLock (t : TimeStamp) (keys : List Key) (commitTS : TimeStamp)
  | deliver (req : Request) (pdTS : Option TimeStamp)
  deriving DecidableEq

variable (txns : TimeStamp → Spec)

def plainTxns (t : TimeStamp) : TxnSpec := (txns t).toTxnSpec

/-- `KvPrewrite` with `TryOnePc` commits at once when the mutations are few and small. -/
def serve (s : Store) (pdTS : Option TimeStamp) : Request → Reply × Store
  | .kv req =>
    let (reply, s') := TwoPhaseCommit.execute (plainTxns txns) s req
    (.kv reply, s')
  | .onePC t maxCommitTS =>
    let x := txns t
    if is1PCEligible x.mutations 0 then
      let (errs, ts, s') := Storage.prewrite1PC s x.mutations x.primary t (pdTS.getD (t + 1)) x.lockTTL
      (.onePC errs ts, s')
    else
      let (reply, s') := TwoPhaseCommit.execute (plainTxns txns) s (.prewrite t x.mutations maxCommitTS)
      (.kv reply, s')

/-! ### The client -/

inductive PrimaryStatus
  | notCommitted
  | committed
  | stillLocked
  deriving DecidableEq

def primaryStatus (x : TxnStatus) : PrimaryStatus :=
  if commitVersion x ≠ 0 then .committed else if 0 < lockTtl x then .stillLocked else .notCommitted

namespace State

def send (s : State) (req : Request) : State := { s with sent := req :: s.sent }

def setClient (s : State) (t : TimeStamp) (c : Client) : State :=
  { s with client := Function.update s.client t c }

def setStage (s : State) (t : TimeStamp) (stage : Stage) : State :=
  s.setClient t { s.client t with stage }

def prewriteAcked (s : State) (t : TimeStamp) (r : ℕ) (onePcCommitTS : TimeStamp) : Bool :=
  s.replies.any fun
    | (.kv (.prewrite t' ms _), .kv (.errors errs)) =>
      t' = t ∧ (txns t).tryOnePC r = false ∧ ms = (txns t).group r ∧ !errs.any Option.isSome ∧
        onePcCommitTS = 0
    | (.onePC t' _, .kv (.errors errs)) =>
      t' = t ∧ (txns t).tryOnePC r ∧ !errs.any Option.isSome ∧ onePcCommitTS = 0
    | (.onePC t' _, .onePC errs ts) =>
      t' = t ∧ (txns t).tryOnePC r ∧ !errs.any Option.isSome ∧ onePcCommitTS = ts
    | _ => false

def reported (s : State) (t c : TimeStamp) : Bool :=
  s.replies.any fun
    | (.kv (.checkTxnStatus t' _ _), .kv (.status st)) =>
      t' = t ∧ ((0 < c ∧ st.commitTS = c) ∨ (c = 0 ∧ st.isRolledBack = true))
    | _ => false

def prewritten (s : State) (t : TimeStamp) : Bool :=
  match (s.client t).stage with
  | .prewriting done => ∀ r ∈ (txns t).regions, r ∈ done
  | _ => false

end State

/-- `commitPrimary` returns at once when there is a commit timestamp and `Try1PC` is set. -/
def afterGetTS (x : Spec) (ts : TimeStamp) : Client :=
  if ts ≠ 0 ∧ x.try1PC then ⟨.committingSecondaries, ts⟩ else ⟨.committingPrimary, ts⟩

def afterCheck : PrimaryStatus → Stage
  | .committed => .committingSecondaries
  | .stillLocked => .returned (.error true)
  | .notCommitted => .rollingBack

def prewriteRequest (t : TimeStamp) (r : ℕ) (maxCommitTS : TimeStamp) : Request :=
  if (txns t).tryOnePC r then .onePC t maxCommitTS
  else .kv (.prewrite t ((txns t).group r) maxCommitTS)

def stepClient (s : State) (t : TimeStamp) : ClientAction → Option State
  | .prewriteRegion r maxCommitTS =>
    match (s.client t).stage with
    | .prewriting done =>
      -- The primary's region comes first, the others follow in parallel.
      if r ∈ (txns t).regions ∧ (r = (txns t).primaryRegion ∨ (txns t).primaryRegion ∈ done) then
        some (s.send (prewriteRequest txns t r maxCommitTS))
      else none
    | _ => none
  | .prewriteAcked r ts =>
    match (s.client t).stage with
    | .prewriting done =>
      if r ∈ (txns t).regions ∧ s.prewriteAcked txns t r ts then
        some (s.setClient t ⟨.prewriting (r :: done), if 0 < ts then ts else (s.client t).commitTS⟩)
      else none
    | _ => none
  | .prewriteFailed =>
    match (s.client t).stage with
    | .prewriting _ => some (s.setStage t .rollingBack)
    | _ => none
  | .getTS ts =>
    if s.prewritten txns t ∧ s.now < ts then
      some { s.setClient t (afterGetTS (txns t) ts) with now := ts }
    else none
  | .getTSFailed => if s.prewritten txns t then some (s.setStage t .rollingBack) else none
  | .commitPrimary =>
    if (s.client t).stage = .committingPrimary then
      some (s.send (.kv (.commit t [(txns t).primary] (s.client t).commitTS)))
    else none
  | .commitPrimaryAcked =>
    if (s.client t).stage = .committingPrimary ∧
        (.kv (.commit t [(txns t).primary] (s.client t).commitTS), .kv (.error none)) ∈ s.replies then
      some (s.setStage t .committingSecondaries)
    else none
  | .commitPrimaryFailed =>
    if (s.client t).stage = .committingPrimary then some (s.setStage t .checkingPrimary) else none
  | .checkPrimary =>
    if (s.client t).stage = .checkingPrimary then some (s.send (.kv (.checkPrimaryStatus t))) else none
  | .checkPrimaryReplied status =>
    if (s.client t).stage = .checkingPrimary ∧
        (.kv (.checkPrimaryStatus t), .kv (.status status)) ∈ s.replies then
      some (s.setStage t (afterCheck (primaryStatus status)))
    else none
  | .checkPrimaryFailed =>
    if (s.client t).stage = .checkingPrimary then some (s.setStage t (.returned (.error true)))
    else none
  | .commitSecondaries keys =>
    if (s.client t).stage = .committingSecondaries ∧
        ¬ ((txns t).try1PC ∧ (txns t).mutations.length ≤ 1) ∧ keys ≠ [] ∧ keys.Nodup ∧
        ∀ k ∈ keys, k ∈ (txns t).keys ∧ k ≠ (txns t).primary then
      some (s.send (.kv (.commit t keys (s.client t).commitTS)))
    else none
  | .rollback keys =>
    if (s.client t).stage = .rollingBack ∧ keys.Nodup ∧ ∀ k ∈ keys, k ∈ (txns t).keys then
      some (s.send (.kv (.batchRollback t keys)))
    else none
  | .finish =>
    match (s.client t).stage with
    | .committingSecondaries => some (s.setStage t (.returned .ok))
    | .rollingBack => some (s.setStage t (.returned (.error false)))
    | _ => none

def step (s : State) : Action → Option State
  | .begin t =>
    if (s.client t).stage = .idle ∧ s.now < t then
      some { s.setClient t ⟨.prewriting [], 0⟩ with now := t }
    else none
  | .client t a => stepClient txns s t a
  | .checkTxnStatus t caller rb =>
    if (s.client t).stage ≠ .idle then some (s.send (.kv (.checkTxnStatus t caller rb))) else none
  | .resolveLock t keys c =>
    if s.reported t c ∧ keys ≠ [] ∧ keys.Nodup then some (s.send (.kv (.resolveLock t keys c)))
    else none
  | .deliver req pdTS =>
    if req ∈ s.sent ∧ pdTS.all (s.now < ·) then
      let (reply, store) := serve txns s.store pdTS req
      some { s with store, now := pdTS.getD s.now, replies := (req, reply) :: s.replies }
    else none

def system : StepSystem State Action where
  start := ⟨Store.empty, 0, fun _ => {}, [], []⟩
  step := step txns

def HasCommitRecord (s : Store) (k : Key) (t : TimeStamp) : Prop :=
  ∃ q ∈ (s k).writes.entries, q.2.startTS = t ∧ q.2.writeType ≠ .rollback

instance (s : Store) (k : Key) (t : TimeStamp) : Decidable (HasCommitRecord s k t) :=
  inferInstanceAs (Decidable (∃ q ∈ (s k).writes.entries, _))

/-- **The answers are truthful**: nil means that the primary is committed, and was before any
secondary; an error without `commitStatusUnknown` means that no key is. -/
structure Truthful (s : State) : Prop where
  ok : ∀ t, (s.client t).stage = .returned .ok → HasCommitRecord s.store (txns t).primary t
  secondaries : ∀ t keys c, .kv (.commit t keys c) ∈ s.sent → (∃ k ∈ keys, k ≠ (txns t).primary) →
    HasCommitRecord s.store (txns t).primary t
  error : ∀ t, (s.client t).stage = .returned (.error false) → ∀ k ∈ (txns t).keys,
    ¬ HasCommitRecord s.store k t

def twoRegions : Spec where
  toTxnSpec := TwoPhaseCommit.twoPuts
  try1PC := true
  region := fun k => k.length + (k.headD 0).toNat

/-- Neither of two regions commits in one phase, but `execute` takes its timestamp for a sign of
it. -/
def untruthfulRun : List Action :=
  [.begin 1,
   .client 1 (.prewriteRegion 2 0), .deliver (.kv (.prewrite 1 (twoRegions.group 2) 0)) none,
   .client 1 (.prewriteAcked 2 0),
   .client 1 (.prewriteRegion 3 0), .deliver (.kv (.prewrite 1 (twoRegions.group 3) 0)) none,
   .client 1 (.prewriteAcked 3 0),
   .client 1 (.getTS 2), .client 1 (.commitSecondaries [[2]]),
   .deliver (.kv (.commit 1 [[2]] 2)) none, .client 1 .finish]

theorem untruthful_reachable : ∃ s, (system fun _ => twoRegions).Reachable s ∧
    (s.client 1).stage = .returned .ok ∧ ¬ HasCommitRecord s.store [1] 1 ∧
    HasCommitRecord s.store [2] 1 ∧ ¬ Truthful (fun _ => twoRegions) s := by
  obtain ⟨s, hs, hok, hprimary, hsecondary⟩ : ∃ s, (system fun _ => twoRegions).runFrom
      (system fun _ => twoRegions).start untruthfulRun = some s ∧
      (s.client 1).stage = .returned .ok ∧ ¬ HasCommitRecord s.store [1] 1 ∧
      HasCommitRecord s.store [2] 1 :=
    ⟨_, rfl, rfl, by decide, by decide⟩
  exact ⟨s, StepSystem.reachable_of_run .start hs, hok, hprimary, hsecondary,
    fun htruthful => hprimary (htruthful.ok 1 hok)⟩

end Committer
