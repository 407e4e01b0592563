/-
Proposals and their callbacks.
-/
import Gookv.StepSystem
import Gookv.RaftEntry

namespace Proposals

open Raftstore List

def putUint64 (id : UInt64) : List UInt8 :=
  [(id >>> 56).toUInt8, (id >>> 48).toUInt8, (id >>> 40).toUInt8, (id >>> 32).toUInt8,
    (id >>> 24).toUInt8, (id >>> 16).toUInt8, (id >>> 8).toUInt8, id.toUInt8]

theorem bigEndian_putUint64 (id : UInt64) (rest : List UInt8) :
    bigEndian (putUint64 id ++ rest) = id.toNat := by
  have hlt := id.toNat_lt
  simp only [bigEndian, putUint64, cons_append, nil_append, take_succ_cons,
    take_zero, foldl_cons, foldl_nil, UInt64.toNat_toUInt8, UInt64.toNat_shiftRight,
    Nat.shiftRight_eq_div_pow, UInt64.reduceToNat, Nat.reduceMod, Nat.reducePow]
  omega

theorem head_putUint64 {id : UInt64} (hid : id.toNat < 2 ^ 56) : (putUint64 id).head? = some 0 := by
  have hbyte : (id >>> 56).toUInt8 = 0 := by
    rw [← UInt8.toNat_inj]
    simp only [UInt64.toNat_toUInt8, UInt64.toNat_shiftRight, Nat.shiftRight_eq_div_pow,
      UInt64.reduceToNat, UInt8.reduceToNat, Nat.reduceMod, Nat.reducePow]
    omega
  simp [putUint64, hbyte]

theorem le_bigEndian_of_admin {data : List UInt8} (hlen : 8 ≤ data.length)
    (hadmin : isSplitAdmin data = true ∨ isCompactLog data = true) : 2 ^ 56 ≤ bigEndian data := by
  match data, hlen with
  | b₀ :: b₁ :: b₂ :: b₃ :: b₄ :: b₅ :: b₆ :: b₇ :: rest, _ =>
    have hb : 1 ≤ b₀.toNat := by
      simp only [isSplitAdmin, isCompactLog, tagSplitAdmin, tagCompactLog, head?_cons,
        beq_iff_eq, Option.some.injEq] at hadmin
      rcases hadmin with rfl | rfl <;> decide
    simp only [bigEndian, take_succ_cons, take_zero, foldl_cons, foldl_nil]
    omega

structure Cluster where
  request : ℕ → List UInt8
  request_ne : ∀ c, request c ≠ []
  async : ℕ → Bool

structure LogEntry where
  entry : Entry
  origin : Option ℕ
  deriving DecidableEq

structure Pending where
  id : ℕ
  cmd : ℕ
  term : ℕ
  deriving DecidableEq

structure ApplyTask where
  entries : List LogEntry
  callbacks : List Pending
  deriving DecidableEq

/-- A peer: `raftTerm` and `raftLeader` are those of its RawNode, `readyTerm` of the last HardState,
`isLeader` and `currentTerm` its own copies. -/
structure Peer where
  raftTerm : ℕ
  raftLeader : Bool
  readyTerm : ℕ
  isLeader : Bool
  currentTerm : ℕ
  nextProposalID : UInt64
  pendingProposals : List Pending
  mailbox : List ℕ
  delivered : ℕ
  tasks : List ApplyTask
  applied : List ℕ
  deriving DecidableEq

structure Ack where
  peer : ℕ
  cmd : ℕ
  entry : LogEntry
  success : Bool
  deriving DecidableEq

/-- `owner` is the leader of each term, `network` has forwarded proposals, `appended` those of
leaders. -/
structure State where
  peers : ℕ → Peer
  owner : ℕ → Option ℕ
  network : List LogEntry
  appended : List LogEntry
  committed : List LogEntry
  nextCmd : ℕ
  acks : List Ack

inductive Fate
  | accepted
  | rejected
  deriving DecidableEq

inductive Action
  | call (p : ℕ)
  | propose (p : ℕ) (fate : Fate)
  | proposeAdmin (p : ℕ) (e : Entry)
  | receive (p i : ℕ)
  | campaign (p t : ℕ)
  | stepDown (p t : ℕ)
  | commit (i : ℕ)
  | ready (p n : ℕ) (hardState : Bool)
  | processTask (p i : ℕ)
  | restart (p first : ℕ)

def proposalID (e : Entry) : Option ℕ :=
  if e.entryType ≠ .normal ∨ e.data.length < 8 then none
  else if bigEndian e.data = 0 then none
  else some (bigEndian e.data)

def findCallback (callbacks : List Pending) (e : Entry) : Option Pending :=
  (proposalID e).bind fun id => callbacks.find? fun c => c.id = id

def ackOf (p : ℕ) (c : Pending) (e : LogEntry) : Ack := ⟨p, c.cmd, e, e.entry.term == c.term⟩

def inlineCallback (p : ℕ) (st : List Pending × List Ack) (e : LogEntry) :
    List Pending × List Ack :=
  match findCallback st.1 e.entry with
  | none => st
  | some c => (st.1.filter fun c' => c'.id != c.id, st.2 ++ [ackOf p c e])

def takeCallback (st : List Pending × List Pending) (e : LogEntry) :
    List Pending × List Pending :=
  match findCallback st.1 e.entry with
  | none => st
  | some c => (st.1.filter fun c' => c'.id != c.id, st.2 ++ [c])

def taskAcks (p : ℕ) (task : ApplyTask) : List Ack :=
  task.entries.filterMap fun e => (findCallback task.callbacks e.entry).map fun c => ackOf p c e

def dataEntries (es : List LogEntry) : List LogEntry := es.filter fun e => e.entry.isData

def indices (es : List LogEntry) : List ℕ := es.map fun e => e.entry.index

/-! ### The system -/

variable (cl : Cluster)

def State.setPeer (s : State) (p : ℕ) (x : Peer) : State :=
  { s with peers := Function.update s.peers p x }

def taggedEntry (id : UInt64) (term c : ℕ) : LogEntry :=
  ⟨⟨.normal, term, 0, putUint64 id ++ cl.request c⟩, some c⟩

def Peer.takeState (x : Peer) (hardState : Bool) : Peer :=
  { x with
    isLeader := x.raftLeader
    pendingProposals := if x.isLeader && !x.raftLeader then [] else x.pendingProposals
    currentTerm := if hardState || x.readyTerm != x.raftTerm then x.raftTerm else x.currentTerm
    readyTerm := x.raftTerm }

def State.propose (s : State) (p c : ℕ) (fate : Fate) : State :=
  let x := s.peers p
  let x' := { x with mailbox := x.mailbox.tail, nextProposalID := x.nextProposalID + 1 }
  let e := taggedEntry cl x.nextProposalID x.raftTerm c
  match fate with
  | .rejected => s.setPeer p x'
  | .accepted =>
    let s' := s.setPeer p { x' with
      pendingProposals := ⟨x.nextProposalID.toNat, c, x.currentTerm⟩ ::
        x.pendingProposals.filter fun c' => c'.id != x.nextProposalID.toNat }
    if x.raftLeader then { s' with appended := s'.appended ++ [e] }
    else { s' with network := s'.network ++ [e] }

def State.batch (s : State) (p n : ℕ) : List LogEntry :=
  (s.committed.drop (s.peers p).delivered).take n

def State.handleReady (s : State) (p n : ℕ) (hardState : Bool) : State :=
  let x := (s.peers p).takeState hardState
  let es := s.batch p n
  let x₁ := { x with delivered := x.delivered + es.length }
  if cl.async p then
    if dataEntries es = [] then s.setPeer p x₁
    else
      let r := (dataEntries es).foldl takeCallback (x.pendingProposals, [])
      s.setPeer p { x₁ with pendingProposals := r.1, tasks := x.tasks ++ [⟨dataEntries es, r.2⟩] }
  else
    let r := es.foldl (inlineCallback p) (x.pendingProposals, s.acks)
    { s.setPeer p { x₁ with
        pendingProposals := r.1
        applied := indices (dataEntries es) ++ x.applied } with
      acks := r.2 }

def State.processTask (s : State) (p i : ℕ) (task : ApplyTask) : State :=
  let x := s.peers p
  { s.setPeer p { x with
      tasks := x.tasks.eraseIdx i
      applied := indices task.entries ++ x.applied } with
    acks := s.acks ++ taskAcks p task }

def Peer.restart (x : Peer) (first : ℕ) : Peer :=
  ⟨x.raftTerm, false, x.raftTerm, false, 0, 1, [], [], first, [], x.applied⟩

def isAdminEntry (e : Entry) : Bool :=
  e.entryType != .normal || e.data.isEmpty || isSplitAdmin e.data || isCompactLog e.data

def step (s : State) : Action → Option State
  | .call p =>
    -- `ProposeModifies` asks `IsLeader` in the caller's goroutine, then uses the mailbox
    if (s.peers p).isLeader then
      let x := s.peers p
      some { s.setPeer p { x with mailbox := x.mailbox ++ [s.nextCmd] } with
        nextCmd := s.nextCmd + 1 }
    else none
  | .propose p fate =>
    match (s.peers p).mailbox with
    | [] => none
    | c :: _ => some (s.propose cl p c fate)
  | .proposeAdmin p e =>
    if isAdminEntry e then
      if (s.peers p).raftLeader then
        some { s with appended := s.appended ++ [⟨{ e with term := (s.peers p).raftTerm }, none⟩] }
      else some { s with network := s.network ++ [⟨e, none⟩] }
    else none
  | .receive p i =>
    match s.network[i]? with
    | none => none
    | some e =>
      if (s.peers p).raftLeader then
        some { s with
          appended := s.appended ++ [⟨{ e.entry with term := (s.peers p).raftTerm }, e.origin⟩] }
      else none
  | .campaign p t =>
    if s.owner t = none ∧ (s.peers p).raftTerm < t then
      let x := s.peers p
      some { s.setPeer p { x with raftTerm := t, raftLeader := true } with
        owner := Function.update s.owner t (some p) }
    else none
  | .stepDown p t =>
    if (s.peers p).raftTerm ≤ t then
      let x := s.peers p
      some (s.setPeer p { x with raftTerm := t, raftLeader := false })
    else none
  | .commit i =>
    match s.appended[i]? with
    | none => none
    | some e =>
      some { s with
        committed := s.committed ++
          [⟨{ e.entry with index := s.committed.length + 1 }, e.origin⟩] }
  | .ready p n hardState => some (s.handleReady cl p n hardState)
  | .processTask p i =>
    match (s.peers p).tasks[i]? with
    | none => none
    | some task => some (s.processTask p i task)
  | .restart p first => some (s.setPeer p ((s.peers p).restart first))

def newPeer : Peer := ⟨0, false, 0, false, 0, 1, [], [], 0, [], []⟩

def start : State := ⟨fun _ => newPeer, fun _ => none, [], [], [], 0, []⟩

def system : StepSystem State Action := ⟨start, step cl⟩

def Honest (s : State) : Prop :=
  ∀ a ∈ s.acks, a.success = true →
    a.entry.origin = some a.cmd ∧ a.entry ∈ s.committed ∧
      a.entry.entry.index ∈ (s.peers a.peer).applied

def LeaderProposes (s : State) : Action → Prop
  | .propose p _ => (s.peers p).raftLeader = true ∧ (s.peers p).currentTerm = (s.peers p).raftTerm ∧
      (s.peers p).nextProposalID.toNat < 2 ^ 56
  | _ => True

instance (s : State) : (a : Action) → Decidable (LeaderProposes s a)
  | .propose p _ => inferInstanceAs (Decidable ((s.peers p).raftLeader = true ∧
      (s.peers p).currentTerm = (s.peers p).raftTerm ∧
      (s.peers p).nextProposalID.toNat < 2 ^ 56))
  | .call _ | .proposeAdmin _ _ | .receive _ _ | .campaign _ _ | .stepDown _ _ | .commit _
  | .ready _ _ _ | .processTask _ _ | .restart _ _ => isTrue trivial

end Proposals
