/-
Reads under the leader's lease.
-/
import Gookv.ApplyPipeline

namespace LeaseRead

open Raftstore Function

structure CommittedLog extends ApplyPipeline.Log where
  term_mono : ∀ i j, i ≤ j → (entry i).term ≤ (entry j).term

/-- A peer; `commitTerm` is the term in which its RawNode learned its commit index. -/
structure Peer where
  raftTerm : ℕ
  raftLeader : Bool
  commit : ℕ
  commitTerm : ℕ
  isLeader : Bool
  currentTerm : ℕ
  committedIndex : ℕ
  lease : Bool
  pipe : ApplyPipeline.State

structure Shared where
  owner : ℕ → Option ℕ
  maxTerm : ℕ
  inherited : ℕ → List ℕ
  started : List ℕ
  chosen : ℕ
  announced : List (ℕ × ℕ)
  acked : List ℕ
  served : List (List ℕ × ApplyPipeline.State)

structure State where
  peers : ℕ → Peer
  shared : Shared

inductive Action
  | campaign (p t : ℕ)
  | stepDown (p t : ℕ)
  | choose (p n : ℕ)
  | advance (p n : ℕ)
  | learn (p n : ℕ)
  | ready (p : ℕ) (rd : ApplyPipeline.Ready)
  | apply (p : ℕ) (a : ApplyPipeline.Action)
  | ack (p i : ℕ)
  | expire (p : ℕ)
  | readIndex (p : ℕ)

variable (log : CommittedLog) (members : List ℕ)

def State.setPeer (s : State) (p : ℕ) (x : Peer) : State :=
  { s with peers := update s.peers p x }

def Peer.leaseAfter (x : Peer) (rd : ApplyPipeline.Ready) : Bool :=
  if x.raftLeader && !rd.readStates.isEmpty then true
  else if x.raftLeader && !x.isLeader then true
  else if !x.raftLeader && x.isLeader then false
  else x.lease

def Peer.handleReady (x : Peer) (rd : ApplyPipeline.Ready) : Peer :=
  let soft := if x.raftLeader = x.isLeader then none else some x.raftLeader
  { x with
    isLeader := x.raftLeader
    currentTerm := x.raftTerm
    committedIndex := x.commit
    lease := x.leaseAfter rd
    pipe := x.pipe.handleReady log.toLog { rd with softState := soft } }

def Shared.afterReady (g : Shared) (x : Peer) : Shared :=
  { g with
    started := if x.raftLeader then x.raftTerm :: g.started else g.started
    announced := if 0 < x.commit then (x.commitTerm, x.commit) :: g.announced else g.announced }

def Peer.leasePath (x : Peer) : Bool :=
  x.isLeader && x.lease && decide (x.committedIndex ≤ x.pipe.applyState.appliedIndex)

/-! ### The system -/

/-- Leader `p` of the newest term may get the log committed up to `n`. -/
def State.MayChoose (s : State) (p n : ℕ) : Prop :=
  let x := s.peers p
  x.raftLeader = true ∧ x.isLeader = true ∧ x.currentTerm = x.raftTerm ∧
    x.raftTerm = s.shared.maxTerm ∧ s.shared.chosen < n ∧ (log.entry n).term = x.raftTerm ∧
    ∀ i ∈ List.range' (s.shared.chosen + 1) (n - s.shared.chosen),
      (log.entry i).term = x.raftTerm ∨ (log.entry i).term ∈ s.shared.inherited x.raftTerm

instance (s : State) (p n : ℕ) : Decidable (s.MayChoose log p n) :=
  inferInstanceAs (Decidable (_ ∧ _ ∧ _ ∧ _ ∧ _ ∧ _ ∧ _))

def State.MayCampaign (s : State) (p t : ℕ) : Prop :=
  s.shared.owner t = none ∧ (s.peers p).raftTerm < t ∧
    ∀ q ∈ members, q ≠ p → (s.peers q).lease = false

instance (s : State) (p t : ℕ) : Decidable (s.MayCampaign members p t) :=
  inferInstanceAs (Decidable (_ ∧ _ ∧ _))

def State.MayReady (s : State) (p : ℕ) (rd : ApplyPipeline.Ready) : Prop :=
  let x := s.peers p
  p ∈ members ∧ x.pipe.next + rd.count ≤ x.commit + 1 ∧
    (rd.readStates ≠ [] → x.raftLeader = true ∧ x.raftTerm = s.shared.maxTerm)

instance (s : State) (p : ℕ) (rd : ApplyPipeline.Ready) : Decidable (s.MayReady members p rd) :=
  inferInstanceAs (Decidable (_ ∧ _ ∧ _))

def Shared.elect (g : Shared) (p t : ℕ) : Shared :=
  { g with
    owner := update g.owner t (some p)
    maxTerm := max g.maxTerm t
    inherited := update g.inherited t (g.started.filter (· < t)) }

def isReady : ApplyPipeline.Action → Bool
  | .ready _ => true
  | _ => false

def step (s : State) : Action → Option State
  | .campaign p t =>
    if s.MayCampaign members p t then
      let x := s.peers p
      some ⟨update s.peers p { x with raftTerm := t, raftLeader := true }, s.shared.elect p t⟩
    else none
  | .stepDown p t =>
    let x := s.peers p
    if x.raftTerm ≤ t then some (s.setPeer p { x with raftTerm := t, raftLeader := false }) else none
  | .choose p n =>
    if s.MayChoose log p n then some ⟨s.peers, { s.shared with chosen := n }⟩ else none
  | .advance p n =>
    -- a leader counts replicas of entries of its own term only
    let x := s.peers p
    if x.raftLeader = true ∧ x.commit < n ∧ n ≤ s.shared.chosen ∧ (log.entry n).term = x.raftTerm then
      some (s.setPeer p { x with commit := n, commitTerm := x.raftTerm })
    else none
  | .learn p n =>
    let x := s.peers p
    if x.raftLeader = false ∧ x.commit < n ∧ (x.raftTerm, n) ∈ s.shared.announced then
      some (s.setPeer p { x with commit := n, commitTerm := x.raftTerm })
    else none
  | .ready p rd =>
    if s.MayReady members p rd then
      let x := s.peers p
      some ⟨update s.peers p (x.handleReady log rd), s.shared.afterReady x⟩
    else none
  | .apply p a =>
    let x := s.peers p
    if isReady a then none
    else (ApplyPipeline.step log.toLog x.pipe a).map fun pipe => s.setPeer p { x with pipe }
  | .ack p i =>
    if i < (s.peers p).pipe.next ∧ 0 < i then
      some ⟨s.peers, { s.shared with acked := i :: s.shared.acked }⟩
    else none
  | .expire p =>
    let x := s.peers p
    some (s.setPeer p { x with lease := false })
  | .readIndex p =>
    if (s.peers p).leasePath then
      some ⟨s.peers, { s.shared with served := (s.shared.acked, (s.peers p).pipe) :: s.shared.served }⟩
    else none

def newPeer : Peer :=
  ⟨0, false, 0, 0, false, 0, 0, false, ApplyPipeline.start (ApplyPipeline.freshBoot log.toLog)⟩

def start : State :=
  ⟨fun _ => newPeer log, ⟨fun _ => none, 0, fun _ => [], [], 0, [], [], []⟩⟩

def system : StepSystem State Action := ⟨start log, step log members⟩

def Fresh (s : State) : Prop :=
  ∀ r ∈ s.shared.served, ∀ i ∈ r.1, (log.entry i).isData = true →
    ApplyPipeline.Applied (ApplyPipeline.freshBoot log.toLog) r.2 i

def LeaseGuarded (s : State) : Action → Prop
  | .readIndex p => 0 < (s.peers p).committedIndex ∧
      (log.entry (s.peers p).committedIndex).term = (s.peers p).currentTerm
  | .ready p rd =>
    ApplyPipeline.Drained (ApplyPipeline.freshBoot log.toLog) (s.peers p).pipe (.ready rd)
  | _ => True

instance (s : State) : (a : Action) → Decidable (LeaseGuarded log s a)
  | .readIndex p => inferInstanceAs (Decidable (0 < (s.peers p).committedIndex ∧
      (log.entry (s.peers p).committedIndex).term = (s.peers p).currentTerm))
  | .ready p rd => inferInstanceAs (Decidable
      (ApplyPipeline.Drained (ApplyPipeline.freshBoot log.toLog) (s.peers p).pipe (.ready rd)))
  | .campaign _ _ | .stepDown _ _ | .choose _ _ | .advance _ _ | .learn _ _ | .apply _ _
  | .ack _ _ | .expire _ => isTrue trivial

end LeaseRead
