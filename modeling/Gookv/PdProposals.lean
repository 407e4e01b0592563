/-
Proposals of a PD node and their callbacks: `propose`, `handleReady` and `ProposeAndWait`
of `internal/pd/raft_peer.go`.

Callbacks are matched with committed entries by their place in a queue.  `Synced` says that the
queue is the list of the proposals since the last loss of leadership whose entries are still to be
applied; `ownResults_of_aligned` says which commits, elections, forwarded and lost proposals keep
it so, and that nothing else gives every callback its own result.
-/
import Gookv.StepSystem

namespace PdProposals

open Option List

inductive ProposalError (Err : Type)
  | marshal
  | propose
  | notLeader
  | unmarshal
  | apply (e : Err)
  deriving DecidableEq

/-- The call of a callback; `entry` is the proposal that the applied entry carries. -/
structure Invocation (Res Err : Type) where
  proposal : ℕ
  outcome : Except (ProposalError Err) Res
  entry : Option ℕ

inductive Proposed
  | marshalError
  | rejected
  | accepted
  deriving DecidableEq

inductive Payload (Cmd : Type)
  | empty
  | confChange
  | undecodable
  | command (cmd : Cmd)
  deriving DecidableEq

inductive Entry (Cmd : Type)
  | own (proposal : ℕ)
  | foreign (payload : Payload Cmd)
  deriving DecidableEq

variable {Mem Cmd Res Err : Type}

/-- A PD node with a callback or nil for every accepted proposal, and a record of the calls.
`outstanding` are the accepted proposals whose entries are not applied, `unapplied` those of them
that were made since leadership was last lost. -/
structure Node (Mem Cmd Res Err : Type) where
  isLeader : Bool
  pendingProposals : List (Option ℕ)
  mem : Mem
  commands : List Cmd
  outstanding : List ℕ
  unapplied : List ℕ
  invoked : List (Invocation Res Err)

open Node

section

variable (applyFunc : Mem → Cmd → Except Err Res × Mem)

def Node.invoke (n : Node Mem Cmd Res Err) (callback : Option ℕ)
    (outcome : Except (ProposalError Err) Res) (entry : Option ℕ) : Node Mem Cmd Res Err :=
  { n with invoked := n.invoked ++ callback.toList.map fun id => ⟨id, outcome, entry⟩ }

def Node.propose (n : Node Mem Cmd Res Err) (cmd : Cmd) (hasCallback : Bool) (raft : Proposed) :
    Node Mem Cmd Res Err :=
  let id := n.commands.length
  let callback := if hasCallback then some id else none
  let n := { n with commands := n.commands ++ [cmd] }
  match raft with
  | .marshalError => n.invoke callback (.error .marshal) none
  | .rejected => n.invoke callback (.error .propose) none
  | .accepted =>
    { n with
      pendingProposals := n.pendingProposals ++ [callback]
      outstanding := n.outstanding ++ [id]
      unapplied := n.unapplied ++ [id] }

def Node.setLeader (n : Node Mem Cmd Res Err) (nowLeader : Bool) : Node Mem Cmd Res Err :=
  let wasLeader := n.isLeader
  let n := { n with isLeader := nowLeader }
  if wasLeader && !nowLeader then
    { n.pendingProposals.foldl (fun n callback => n.invoke callback (.error .notLeader) none) n with
      pendingProposals := [], unapplied := [] }
  else n

def Node.dequeue (n : Node Mem Cmd Res Err) (outcome : Except (ProposalError Err) Res)
    (entry : Option ℕ) : Node Mem Cmd Res Err :=
  match n.pendingProposals with
  | [] => n
  | callback :: pendingProposals => { n with pendingProposals }.invoke callback outcome entry

def Node.applyEntry (n : Node Mem Cmd Res Err) (payload : Payload Cmd) (entry : Option ℕ) :
    Node Mem Cmd Res Err :=
  match payload with
  | .empty | .confChange => n
  | .undecodable => n.dequeue (.error .unmarshal) entry
  | .command cmd =>
    let applied := applyFunc n.mem cmd
    { n with mem := applied.2 }.dequeue (applied.1.mapError .apply) entry

inductive Action (Mem Cmd : Type)
  | propose (cmd : Cmd) (hasCallback : Bool) (raft : Proposed)
  | setLeader (nowLeader : Bool)
  | applySnapshot (mem : Mem)
  | applyEntry (entry : Entry Cmd)

def step (n : Node Mem Cmd Res Err) : Action Mem Cmd → Option (Node Mem Cmd Res Err)
  | .propose cmd hasCallback raft => some (n.propose cmd hasCallback raft)
  | .setLeader nowLeader => some (n.setLeader nowLeader)
  | .applySnapshot mem => some { n with mem }
  | .applyEntry (.foreign payload) => some (n.applyEntry applyFunc payload none)
  | .applyEntry (.own id) =>
    if id ∈ n.outstanding then
      (n.commands[id]?).map fun cmd =>
        { n with
          outstanding := n.outstanding.erase id
          unapplied := n.unapplied.erase id }.applyEntry applyFunc (.command cmd) (some id)
    else none

def start (mem : Mem) : Node Mem Cmd Res Err := ⟨false, [], mem, [], [], [], []⟩

def system (mem : Mem) : StepSystem (Node Mem Cmd Res Err) (Action Mem Cmd) :=
  ⟨start mem, step applyFunc⟩

end

/-- Every callback that is called with a result gets that of its own entry. -/
def OwnResults (n : Node Mem Cmd Res Err) : Prop :=
  ∀ i ∈ n.invoked, ∀ res, i.outcome = .ok res → i.entry = some i.proposal

def Entry.proposal : Entry Cmd → Option ℕ
  | .own id => some id
  | .foreign _ => none

/-- The entries for which `handleReady` takes a callback from the queue. -/
def Entry.IsData : Entry Cmd → Prop
  | .foreign .empty | .foreign .confChange => False
  | _ => True

def Node.command (n : Node Mem Cmd Res Err) : Entry Cmd → Option Cmd
  | .own id => n.commands[id]?
  | .foreign (.command cmd) => some cmd
  | .foreign _ => none

/-- While a proposal waits, the next entry with data is the one of the proposal that waits
longest: none of a former leader, of another node or of a proposal from before the last loss of
leadership, and none whose predecessor was lost. -/
def Aligned (n : Node Mem Cmd Res Err) : Action Mem Cmd → Prop
  | .applyEntry e => e.IsData → ∀ id ∈ n.unapplied.head?, e = .own id
  | _ => True

/-- Every proposal has a callback, and every entry with data is applied with a result. -/
def Visible (applyFunc : Mem → Cmd → Except Err Res × Mem) (n : Node Mem Cmd Res Err) :
    Action Mem Cmd → Prop
  | .propose _ hasCallback _ => hasCallback = true
  | .applyEntry e => e.IsData →
      ∃ cmd res, n.command e = some cmd ∧ (applyFunc n.mem cmd).1 = .ok res
  | _ => True

/-! ### Steps -/

section

variable {applyFunc : Mem → Cmd → Except Err Res × Mem} {n n' n'' : Node Mem Cmd Res Err}
  {callback : Option ℕ} {outcome : Except (ProposalError Err) Res} {entry : Option ℕ}
  {i : Invocation Res Err} {a : Action Mem Cmd} {e : Entry Cmd}

def OnlyErrors (n n' : Node Mem Cmd Res Err) : Prop :=
  ∀ i ∈ n'.invoked, i ∈ n.invoked ∨ ∃ e, i.outcome = .error e

theorem OnlyErrors.ownResults (h : OnlyErrors n n') (hn : OwnResults n) : OwnResults n' := by
  intro i hi res hres
  rcases h i hi with hold | ⟨e, he⟩
  · exact hn i hold res hres
  · exact absurd (he.symm.trans hres) (by simp)

theorem OnlyErrors.trans (h : OnlyErrors n n')
    (h' : OnlyErrors n' n'') : OnlyErrors n n'' := by
  intro i hi
  rcases h' i hi with hi | he
  · exact h i hi
  · exact .inr he

theorem mem_invoke : i ∈ (n.invoke callback outcome entry).invoked ↔
      i ∈ n.invoked ∨ ∃ id, callback = some id ∧ i = ⟨id, outcome, entry⟩ := by
  rw [invoke, mem_append]
  rcases callback with _ | id
  · simp
  · simp

theorem onlyErrors_invoke (e : ProposalError Err) :
    OnlyErrors n (n.invoke callback (.error e) entry) := by
  intro i hi
  rcases mem_invoke.mp hi with hi | ⟨id, -, rfl⟩
  · exact .inl hi
  · exact .inr ⟨e, rfl⟩

theorem onlyErrors_propose (cmd : Cmd) (hasCallback : Bool) (raft : Proposed) :
    OnlyErrors n (n.propose cmd hasCallback raft) := by
  cases raft with
  | marshalError => exact onlyErrors_invoke .marshal
  | rejected => exact onlyErrors_invoke .propose
  | accepted => exact fun i hi => .inl hi

theorem onlyErrors_setLeader (nowLeader : Bool) : OnlyErrors n (n.setLeader nowLeader) := by
  have hdrain : ∀ (callbacks : List (Option ℕ)) (n : Node Mem Cmd Res Err), OnlyErrors n
      (callbacks.foldl (fun n callback => n.invoke callback (.error .notLeader) none) n) := by
    intro callbacks
    induction callbacks with
    | nil => exact fun n i hi => .inl hi
    | cons callback callbacks ih =>
      exact fun n => (onlyErrors_invoke .notLeader).trans (ih _)
  rw [setLeader]
  split
  · exact hdrain n.pendingProposals { n with isLeader := nowLeader }
  · exact fun i hi => .inl hi

theorem mem_dequeue : i ∈ (n.dequeue outcome entry).invoked ↔ i ∈ n.invoked ∨
    ∃ id, n.pendingProposals.head? = some (some id) ∧ i = ⟨id, outcome, entry⟩ := by
  rw [dequeue]
  rcases n.pendingProposals with _ | ⟨callback, rest⟩
  · simp
  · rw [mem_invoke]
    simp

theorem dequeue_pendingProposals :
    (n.dequeue outcome entry).pendingProposals = n.pendingProposals.tail := by
  rw [dequeue]
  rcases hpending : n.pendingProposals with _ | ⟨callback, rest⟩
  · exact hpending
  · rfl

theorem dequeue_unapplied : (n.dequeue outcome entry).unapplied = n.unapplied := by
  rw [dequeue]
  split <;> rfl

/-- An entry with data takes the first callback, and is taken from the proposals that wait. -/
theorem step_data (h : step applyFunc n (.applyEntry e) = some n') (hdata : e.IsData) :
    n'.pendingProposals = n.pendingProposals.tail ∧
      n'.unapplied = e.proposal.elim n.unapplied n.unapplied.erase ∧
      ∃ outcome, (∀ i, i ∈ n'.invoked ↔ i ∈ n.invoked ∨
          ∃ id, n.pendingProposals.head? = some (some id) ∧ i = ⟨id, outcome, e.proposal⟩) ∧
        ∀ cmd, n.command e = some cmd → outcome = (applyFunc n.mem cmd).1.mapError .apply := by
  cases e with
  | own id =>
    rw [step] at h
    split at h
    · obtain ⟨cmd, hcmd, rfl⟩ := map_eq_some_iff.mp h
      refine ⟨dequeue_pendingProposals, dequeue_unapplied, _, fun i => mem_dequeue, ?_⟩
      intro cmd' hcmd'
      cases hcmd.symm.trans hcmd'
      rfl
    · cases h
  | foreign payload =>
    cases h
    cases payload with
    | empty | confChange => exact absurd hdata id
    | undecodable =>
      exact ⟨dequeue_pendingProposals, dequeue_unapplied, _, fun i => mem_dequeue,
        fun cmd hcmd => by cases hcmd⟩
    | command cmd =>
      refine ⟨dequeue_pendingProposals, dequeue_unapplied, _, fun i => mem_dequeue, ?_⟩
      intro cmd' hcmd'
      cases hcmd'
      rfl

theorem step_no_data (h : step applyFunc n (.applyEntry e) = some n') (hdata : ¬ e.IsData) :
    n' = n := by
  rcases e with id | payload
  · exact absurd trivial hdata
  · cases payload with
    | empty | confChange => exact (some.inj h).symm
    | undecodable | command cmd => exact absurd trivial hdata

/-! ### The queue and the log -/

/-- The queue holds the callbacks of the proposals that wait, in their order. -/
def Synced (n : Node Mem Cmd Res Err) : Prop :=
  List.Forall₂ (fun callback id => callback = none ∨ callback = some id) n.pendingProposals
    n.unapplied

theorem Synced.propose (h : Synced n) (cmd : Cmd) (hasCallback : Bool) (raft : Proposed) :
    Synced (n.propose cmd hasCallback raft) := by
  cases raft with
  | marshalError => exact h
  | rejected => exact h
  | accepted =>
    refine rel_append h (.cons ?_ .nil)
    cases hasCallback
    · exact .inl rfl
    · exact .inr rfl

theorem Synced.setLeader (h : Synced n) (nowLeader : Bool) : Synced (n.setLeader nowLeader) := by
  rw [Node.setLeader]
  split
  · exact .nil
  · exact h

/-- An aligned step calls at most the callback of its own entry, and leaves the queue in step
with the log. -/
theorem Synced.step (hsynced : Synced n) (hn : OwnResults n) (haligned : Aligned n a)
    (h : step applyFunc n a = some n') : Synced n' ∧ OwnResults n' := by
  cases a with
  | propose cmd hasCallback raft =>
    cases h
    exact ⟨hsynced.propose cmd hasCallback raft,
      (onlyErrors_propose cmd hasCallback raft).ownResults hn⟩
  | setLeader nowLeader =>
    cases h
    exact ⟨hsynced.setLeader nowLeader, (onlyErrors_setLeader nowLeader).ownResults hn⟩
  | applySnapshot mem =>
    cases h
    exact ⟨hsynced, hn⟩
  | applyEntry e =>
    by_cases hdata : e.IsData
    · obtain ⟨hpending, hunapplied, outcome, hinvoked, -⟩ := step_data h hdata
      rw [Synced, hpending, hunapplied]
      cases hu : n.unapplied with
      | nil =>
        have hp : n.pendingProposals = [] := by
          rw [Synced, hu] at hsynced
          exact List.forall₂_nil_right_iff.mp hsynced
        rw [hp]
        refine ⟨by cases e.proposal <;> exact .nil, fun i hi => hn i ?_⟩
        simpa [hinvoked, hp] using hi
      | cons id rest =>
        obtain rfl := haligned hdata id (by rw [hu]; rfl)
        rw [Synced, hu] at hsynced
        obtain ⟨callback, callbacks, hcallback, hrest, hp⟩ :=
          List.forall₂_cons_right_iff.mp hsynced
        rw [hp]
        refine ⟨by simpa [Entry.proposal] using hrest, fun i hi res hres => ?_⟩
        rcases (hinvoked i).mp hi with hold | ⟨id', hid', rfl⟩
        · exact hn i hold res hres
        · rw [hp, head?_cons, some_inj] at hid'
          subst hid'
          exact hcallback.resolve_left (by simp) |>.symm
    · cases step_no_data h hdata
      exact ⟨hsynced, hn⟩

/-- With callbacks and results everywhere, the first step that is not aligned is seen. -/
theorem not_ownResults_of_not_aligned (hsynced : Synced n) (hcallbacks : none ∉ n.pendingProposals)
    (hvisible : Visible applyFunc n a) (haligned : ¬ Aligned n a)
    (h : step applyFunc n a = some n') : ¬ OwnResults n' := by
  intro hn'
  apply haligned
  cases a with
  | propose _ _ _ => trivial
  | setLeader _ => trivial
  | applySnapshot _ => trivial
  | applyEntry e =>
    intro hdata id hid
    obtain ⟨cmd, res, hcmd, hres⟩ := hvisible hdata
    obtain ⟨-, -, outcome, hinvoked, houtcome⟩ := step_data h hdata
    obtain ⟨rest, hu⟩ := List.head?_eq_some_iff.mp hid
    rw [Synced, hu] at hsynced
    obtain ⟨callback, callbacks, hcallback, -, hp⟩ := List.forall₂_cons_right_iff.mp hsynced
    rw [hp] at hcallbacks hinvoked
    have hsome : callback = some id :=
      hcallback.resolve_left fun hnone => hcallbacks (hnone ▸ mem_cons_self)
    have hmem := (hinvoked ⟨id, outcome, e.proposal⟩).mpr (.inr ⟨id, by rw [hsome]; rfl, rfl⟩)
    have hown := hn' _ hmem res (by rw [houtcome cmd hcmd, hres]; rfl)
    cases e with
    | own id' => exact congrArg Entry.own (some.inj hown)
    | foreign payload => cases hown

theorem callbacks_step (hcallbacks : none ∉ n.pendingProposals) (hvisible : Visible applyFunc n a)
    (h : step applyFunc n a = some n') : none ∉ n'.pendingProposals := by
  cases a with
  | propose cmd hasCallback raft =>
    cases h
    cases (hvisible : hasCallback = true)
    cases raft with
    | marshalError | rejected => exact hcallbacks
    | accepted => simpa [Node.propose] using hcallbacks
  | setLeader nowLeader =>
    cases h
    rw [Node.setLeader]
    split
    · exact not_mem_nil
    · exact hcallbacks
  | applySnapshot mem =>
    cases h
    exact hcallbacks
  | applyEntry e =>
    by_cases hdata : e.IsData
    · rw [(step_data h hdata).1]
      exact fun hmem => hcallbacks (mem_of_mem_tail hmem)
    · cases step_no_data h hdata
      exact hcallbacks

end

/-- **While the commits are aligned with the proposals that wait, every callback gets the result of
its own entry; and where every proposal has a callback and every command a result, only then.** -/
theorem ownResults_of_aligned (applyFunc : Mem → Cmd → Except Err Res × Mem) (mem : Mem)
    (as : List (Action Mem Cmd)) :
    ((system applyFunc mem).Meets Aligned (start mem) as →
        (system applyFunc mem).AlwaysAfter OwnResults (start mem) as) ∧
      ((system applyFunc mem).Meets (Visible applyFunc) (start mem) as →
        (system applyFunc mem).AlwaysAfter OwnResults (start mem) as →
          (system applyFunc mem).Meets Aligned (start mem) as) := by
  have hstart : OwnResults (start mem : Node Mem Cmd Res Err) :=
    fun i hi => absurd hi not_mem_nil
  constructor
  · refine StepSystem.alwaysAfter_of_meets (I := fun n => Synced n ∧ OwnResults n) ?_ ⟨.nil, hstart⟩
    exact fun n n' a hn haligned h =>
      ⟨hn.1.step hn.2 haligned h, (hn.1.step hn.2 haligned h).2⟩
  · refine StepSystem.meets_of_alwaysAfter
      (I := fun n => (Synced n ∧ OwnResults n) ∧ none ∉ n.pendingProposals) ?_ ?_
      ⟨⟨.nil, hstart⟩, not_mem_nil⟩
    · exact fun n n' a hn hvisible haligned h =>
        ⟨hn.1.1.step hn.1.2 haligned h, callbacks_step hn.2 hvisible h⟩
    · exact fun n n' a hn hvisible haligned h =>
        not_ownResults_of_not_aligned hn.1.1 hn.2 hvisible haligned h

def updateSafePoint (safePoint newSP : ℕ) : Except Empty ℕ × ℕ :=
  let safePoint := if safePoint < newSP then newSP else safePoint
  (.ok safePoint, safePoint)

def takeOver : List (Action ℕ ℕ) :=
  [.setLeader true, .propose 100 true .accepted, .applyEntry (.foreign (.command 50)),
    .applyEntry (.own 0)]

theorem previous_leaders_result :
    ¬ (system updateSafePoint 0).AlwaysAfter OwnResults (start 0) takeOver ∧
      ((system updateSafePoint 0).runFrom (start 0) takeOver).map
        (fun n => (n.invoked.map fun i => (i.proposal, i.outcome.toOption, i.entry), n.mem)) =
        some ([(0, some 50, none)], 100) := by
  refine ⟨fun h => ?_, rfl⟩
  obtain ⟨-, h⟩ := h _ rfl
  obtain ⟨-, h⟩ := h _ rfl
  obtain ⟨hown, -⟩ := h _ rfl
  exact absurd (hown _ mem_cons_self 50 rfl) (by simp)

end PdProposals
