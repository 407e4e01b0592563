/-
The IDs that a replicated PD hands out (`internal/pd/id_buffer.go`, `scheduler.go`,
`apply.go`).
-/
import Gookv.StepSystem

namespace PdIds

open List Option StepSystem

/-! ### Nodes -/

def word : ℕ := 2 ^ 64

def idBatchSize : ℕ := 100

inductive Command
  | idAlloc (batch : ℕ)
  | other (result : Option ℕ)
  deriving DecidableEq

inductive Callback
  | refill (wait : ℕ)
  | heartbeat
  | other
  deriving DecidableEq

structure Entry where
  owner : ℕ
  callback : Callback
  cmd : Command
  deriving DecidableEq

/-- A PD node: its `IDAllocator`, its `IDBuffer` with the waiting `refill`, and its heartbeats. -/
structure Node where
  nextID : ℕ := 1000
  applied : ℕ := 0
  isLeader : Bool := false
  bufNext : ℕ := 0
  bufEnd : ℕ := 0
  waiting : Option ℕ := none
  nextWait : ℕ := 0
  mailbox : List (Callback × Command) := []
  pendingProposals : List Callback := []
  scheduling : ℕ := 0

open Node

/-- `issued` are the IDs handed out, `scheduler` is the node whose scheduler allocated last, `taken`
the entries up to the last whose batch was taken. -/
structure State where
  nodes : ℕ → Node
  proposed : List Entry := []
  committed : List Entry := []
  issued : List ℕ := []
  scheduler : Option ℕ := none
  taken : ℕ := 0

inductive Action
  | setLeader (n : ℕ) (lead : Bool)
  | alloc (n : ℕ)
  | heartbeat (n : ℕ)
  | proposeOther (n : ℕ) (result : Option ℕ)
  | propose (n : ℕ) (accepted : Bool)
  | abort (n : ℕ)
  | commit (i : ℕ)
  | apply (n : ℕ) (order : List Bool)
  | schedule (n : ℕ)
  deriving DecidableEq

def State.setNode (s : State) (n : ℕ) (x : Node) : State :=
  { s with nodes := Function.update s.nodes n x }

open State

/-- The counter after several `Alloc`, the last ID of the command, and those of schedulers. -/
def allocs (nextID last : ℕ) : List Bool → ℕ × ℕ × List ℕ
  | [] => (nextID, last, [])
  | true :: order => allocs ((nextID + 1) % word) nextID order
  | false :: order =>
    let (nextID', last', ids) := allocs ((nextID + 1) % word) last order
    (nextID', last', nextID :: ids)

def State.scheduled (s : State) (n : ℕ) (ids : List ℕ) : State :=
  { s with
    issued := ids ++ s.issued
    scheduler := if ids = [] then s.scheduler else some n }

def State.takeID (s : State) (n : ℕ) : State :=
  let x := s.nodes n
  { s.setNode n { x with bufNext := (x.bufNext + 1) % word } with
    issued := x.bufNext :: s.issued }

def Node.refill (x : Node) (lastID : ℕ) : Node :=
  { x with
    bufNext := (lastID + word - idBatchSize + 1) % word
    bufEnd := (lastID + 1) % word
    waiting := none }

def Command.size : Command → ℕ
  | .idAlloc batch => if batch = 0 then 1 else batch
  | .other _ => 0

def Node.called (x : Node) : Option ℕ :=
  match x.pendingProposals with
  | .refill wait :: _ => x.waiting.filter fun w => w = wait
  | _ => none

def Node.answered (x : Node) : ℕ := if x.pendingProposals.head? = some .heartbeat then 1 else 0

def Node.advance (x : Node) (order : List Bool) : Node :=
  let (nextID, _, ids) := allocs x.nextID 0 order
  { x with
    nextID := nextID
    applied := x.applied + 1
    pendingProposals := x.pendingProposals.tail
    scheduling := x.scheduling - ids.length + x.answered }

def Command.result (nextID : ℕ) (order : List Bool) : Command → Option ℕ
  | .idAlloc _ => some (allocs nextID 0 order).2.1
  | .other result => result

def State.apply (s : State) (n : ℕ) (e : Entry) (order : List Bool) : State :=
  let x := s.nodes n
  let s₁ := (s.setNode n (x.advance order)).scheduled n (allocs x.nextID 0 order).2.2
  match x.called, e.cmd.result x.nextID order with
  | none, _ => s₁
  | some _, none => s₁.setNode n { x.advance order with waiting := none }
  | some _, some lastID =>
    State.takeID { s₁.setNode n ((x.advance order).refill lastID) with
      taken := max s.taken (x.applied + 1) } n

def Node.startRefill (x : Node) : Node :=
  if x.isLeader then
    { x with
      waiting := some x.nextWait
      nextWait := x.nextWait + 1
      mailbox := x.mailbox ++ [(.refill x.nextWait, .idAlloc idBatchSize)] }
  else x

/-! ### The system -/

def step (s : State) : Action → Option State
  | .setLeader n lead =>
    -- the leader change resets the buffer, for which it needs the mutex
    let x := s.nodes n
    if x.waiting = none ∧ x.isLeader ≠ lead then
      some (s.setNode n
        { x with
          isLeader := lead
          bufNext := 0
          bufEnd := 0
          pendingProposals := if lead then x.pendingProposals else [] })
    else none
  | .alloc n =>
    let x := s.nodes n
    if x.waiting = none then
      if x.bufNext < x.bufEnd then some (s.takeID n) else some (s.setNode n x.startRefill)
    else none
  | .heartbeat n =>
    let x := s.nodes n
    if x.isLeader then
      some (s.setNode n { x with mailbox := x.mailbox ++ [(.heartbeat, .other none)] })
    else none
  | .proposeOther n result =>
    let x := s.nodes n
    some (s.setNode n { x with mailbox := x.mailbox ++ [(.other, .other result)] })
  | .propose n accepted =>
    let x := s.nodes n
    match x.mailbox with
    | [] => none
    | (callback, cmd) :: rest =>
      if accepted then
        some { s.setNode n { x with
                mailbox := rest
                pendingProposals := x.pendingProposals ++ [callback] } with
          proposed := s.proposed ++ [⟨n, callback, cmd⟩] }
      else
        some (s.setNode n
          { x with
            mailbox := rest
            waiting := x.waiting.filter fun w => callback ≠ .refill w })
  | .abort n => some (s.setNode n { s.nodes n with waiting := none })
  | .commit i => (s.proposed[i]?).map fun e => { s with committed := s.committed ++ [e] }
  | .apply n order =>
    match s.committed[(s.nodes n).applied]? with
    | none => none
    | some e =>
      if order.count true = e.cmd.size ∧ order.count false ≤ (s.nodes n).scheduling ∧
          (e.cmd.size = 0 → order = []) then
        some (s.apply n e order)
      else none
  | .schedule n =>
    let x := s.nodes n
    if 0 < x.scheduling then
      some ((s.setNode n { x with
        nextID := (x.nextID + 1) % word
        scheduling := x.scheduling - 1 }).scheduled n [x.nextID])
    else none

def system : StepSystem State Action := ⟨{ nodes := fun _ => {} }, step⟩

def Sole (s : State) (n : ℕ) : Prop := s.scheduler = none ∨ s.scheduler = some n

instance (s : State) (n : ℕ) : Decidable (Sole s n) := inferInstanceAs (Decidable (_ ∨ _))

def MaySchedule (s : State) (n : ℕ) : Prop :=
  Sole s n ∧ s.taken ≤ (s.nodes n).applied ∧ (s.nodes n).nextID + 1 < word

instance (s : State) (n : ℕ) : Decidable (MaySchedule s n) :=
  inferInstanceAs (Decidable (_ ∧ _ ∧ _))

/-- Nobody allocates within a command, and a `refill` takes its own batch on the sole node. -/
def MayApply (s : State) (n : ℕ) (order : List Bool) : Prop :=
  false ∉ order ∧ (s.nodes n).nextID + order.length < word ∧
    ∀ wait ∈ (s.nodes n).called, Sole s n ∧
      ∀ e ∈ s.committed[(s.nodes n).applied]?, e.owner = n ∧ e.callback = .refill wait

instance (s : State) (n : ℕ) (order : List Bool) : Decidable (MayApply s n order) :=
  inferInstanceAs (Decidable (_ ∧ _ ∧ ∀ wait ∈ (s.nodes n).called, _ ∧
    ∀ e ∈ s.committed[(s.nodes n).applied]?, _ ∧ _))

def Orderly (s : State) : Action → Prop
  | .apply n order => MayApply s n order
  | .schedule n => MaySchedule s n
  | _ => True

instance (s : State) : (a : Action) → Decidable (Orderly s a)
  | .apply n order => inferInstanceAs (Decidable (MayApply s n order))
  | .schedule n => inferInstanceAs (Decidable (MaySchedule s n))
  | .setLeader _ _ | .alloc _ | .heartbeat _ | .proposeOther _ _ | .propose _ _ | .abort _
  | .commit _ => isTrue trivial

/-! ### Counters and the log -/

def base (l : List Entry) (j : ℕ) : ℕ := 1000 + ((l.take j).map fun e => e.cmd.size).sum

theorem base_append {j : ℕ} {l : List Entry} {l' : List Entry} (hj : j ≤ l.length) :
    base (l ++ l') j = base l j := by
  rw [base, base, take_append_of_le_length hj]

variable {e : Entry} {j : ℕ} {l : List Entry}

theorem base_succ (h : l[j]? = some e) :
    base l (j + 1) = base l j + e.cmd.size := by
  have htake : l.take (j + 1) = l.take j ++ [e] := by
    rw [take_add_one, h]
    rfl
  rw [base, base, htake, map_append, sum_append]
  simp [Nat.add_assoc]

theorem base_mono {i : ℕ} (l : List Entry) (h : i ≤ j) : base l i ≤ base l j := by
  induction j, h using Nat.le_induction with
  | base => exact le_rfl
  | succ j _ ih =>
    refine ih.trans ?_
    cases hj : l[j]? with
    | some e =>
      rw [base_succ hj]
      exact Nat.le_add_right _ _
    | none =>
      have hlen := getElem?_eq_none_iff.mp hj
      rw [base, base, take_of_length_le hlen, take_of_length_le (by omega)]

theorem allocs_alone : ∀ {order : List Bool} {nextID last : ℕ}, false ∉ order →
    nextID + order.length < word → allocs nextID last order =
      (nextID + order.length, if order = [] then last else nextID + order.length - 1, [])
  | [], nextID, last, _, _ => by simp [allocs]
  | b :: order, nextID, last, hb, hlt => by
    obtain rfl : b = true := by
      cases b
      · exact absurd (by simp) hb
      · rfl
    rw [length_cons] at hlt
    have hmod : (nextID + 1) % word = nextID + 1 := Nat.mod_eq_of_lt (by omega)
    rw [allocs, hmod, allocs_alone (fun h => hb (by simp [h])) (by omega)]
    cases order with
    | nil => simp
    | cons c order =>
      simp only [length_cons, reduceCtorEq, if_false, Prod.mk.injEq, and_true]
      omega

/-! ### The invariant -/

def InBuffer (x : Node) (id : ℕ) : Prop := x.bufNext ≤ id ∧ id < x.bufEnd

def Reserved (s : State) (id : ℕ) : Prop := id ∈ s.issued ∨ ∃ n, InBuffer (s.nodes n) id

def OfBatch (s : State) (id : ℕ) : Prop :=
  ∃ j e, s.committed[j]? = some e ∧ j < (s.nodes e.owner).applied ∧ j < s.taken ∧
    base s.committed j ≤ id ∧ id < base s.committed (j + 1)

def Known (s : State) (id : ℕ) : Prop :=
  (s.scheduler = none → OfBatch s id) ∧ ∀ n, s.scheduler = some n → id < (s.nodes n).nextID

def Sized (callback : Callback) (cmd : Command) : Prop :=
  ∀ wait, callback = .refill wait → cmd = .idAlloc idBatchSize

structure Proposals (s : State) : Prop where
  mailbox : ∀ n, ∀ m ∈ (s.nodes n).mailbox, Sized m.1 m.2
  proposed : ∀ e ∈ s.proposed, Sized e.callback e.cmd
  committed : ∀ e ∈ s.committed, Sized e.callback e.cmd

structure Inv (s : State) : Prop where
  follows : ∀ n, s.scheduler ≠ some n →
    (s.nodes n).nextID = base s.committed (s.nodes n).applied
  applied_le : ∀ n, (s.nodes n).applied ≤ s.committed.length
  bufEnd_lt : ∀ n, (s.nodes n).bufEnd < word
  known : ∀ id, Reserved s id → Known s id
  nodup : s.issued.Nodup
  fresh : ∀ n id, InBuffer (s.nodes n) id → id ∉ s.issued
  disjoint : ∀ n m id, InBuffer (s.nodes n) id → InBuffer (s.nodes m) id → n = m

section
variable {s s' : State} {n : ℕ}

variable {x : Node} {id : ℕ}

theorem Known.mono (h : Known s id) (hsched : s'.scheduler = s.scheduler)
    (hnext : ∀ m, s.scheduler = some m → (s.nodes m).nextID ≤ (s'.nodes m).nextID)
    (happ : ∀ m, (s.nodes m).applied ≤ (s'.nodes m).applied)
    (hcomm : ∃ l, s'.committed = s.committed ++ l) (htaken : s.taken ≤ s'.taken) : Known s' id := by
  refine ⟨fun hs => ?_, fun m hm => ?_⟩
  · obtain ⟨j, e, he, hj, ht, h1, h2⟩ := h.1 (hsched ▸ hs)
    obtain ⟨l, hl⟩ := hcomm
    have hlt : j < s.committed.length := (List.getElem?_eq_some_iff.mp he).1
    refine ⟨j, e, ?_, hj.trans_le (happ _), ht.trans_le htaken, ?_, ?_⟩
    · rw [hl, List.getElem?_append_left hlt, he]
    · rwa [hl, base_append hlt.le]
    · rwa [hl, base_append (by omega)]
  · rw [hsched] at hm
    exact (h.2 m hm).trans_le (hnext m hm)

theorem setNode_nodes (x : Node) (m : ℕ) :
    (s.setNode n x).nodes m = if m = n then x else s.nodes m :=
  Function.update_apply s.nodes n x m

theorem setNode_same {α : Type} (f : Node → α) (h : f x = f (s.nodes n)) (m : ℕ) :
    f ((s.setNode n x).nodes m) = f (s.nodes m) := by
  rw [setNode_nodes]
  split
  · rename_i hm
    rw [hm, h]
  · rfl

theorem inBuffer_setNode
    (h : x.bufNext = (s.nodes n).bufNext ∧ x.bufEnd = (s.nodes n).bufEnd) (m id : ℕ) :
    InBuffer ((s.setNode n x).nodes m) id ↔ InBuffer (s.nodes m) id := by
  rw [InBuffer, setNode_same bufNext h.1, setNode_same bufEnd h.2, InBuffer]

structure Quiet (s s' : State) : Prop where
  nextID : ∀ m, (s'.nodes m).nextID = (s.nodes m).nextID
  applied : ∀ m, (s'.nodes m).applied = (s.nodes m).applied
  buffer : ∀ m, (s'.nodes m).bufNext = (s.nodes m).bufNext ∧
      (s'.nodes m).bufEnd = (s.nodes m).bufEnd ∨ (s'.nodes m).bufEnd = 0
  committed : ∃ l, s'.committed = s.committed ++ l
  issued : s'.issued = s.issued
  scheduler : s'.scheduler = s.scheduler
  taken : s'.taken = s.taken

theorem Quiet.inBuffer {m : ℕ} (h : Quiet s s') (hid : InBuffer (s'.nodes m) id) :
    InBuffer (s.nodes m) id := by
  rcases h.buffer m with ⟨h1, h2⟩ | h0
  · rwa [InBuffer, h1, h2] at hid
  · exact absurd (h0 ▸ hid.2) (Nat.not_lt_zero id)

theorem Quiet.setNode (h1 : x.nextID = (s.nodes n).nextID) (h2 : x.applied = (s.nodes n).applied)
    (h3 : x.bufNext = (s.nodes n).bufNext ∧ x.bufEnd = (s.nodes n).bufEnd ∨ x.bufEnd = 0) :
    Quiet s (s.setNode n x) := by
  refine ⟨setNode_same Node.nextID h1, setNode_same Node.applied h2, fun m => ?_,
    ⟨[], by simp [State.setNode]⟩, rfl, rfl, rfl⟩
  rw [setNode_nodes]
  split
  · rename_i hm
    subst hm
    exact h3
  · exact Or.inl ⟨rfl, rfl⟩

section
variable (h : Inv s)
include h

theorem Inv.quiet (hq : Quiet s s') : Inv s' where
  follows m hm := by
    obtain ⟨l, hl⟩ := hq.committed
    rw [hq.scheduler] at hm
    rw [hq.nextID, hq.applied, hl, base_append (h.applied_le m), h.follows m hm]
  applied_le m := by
    obtain ⟨l, hl⟩ := hq.committed
    rw [hq.applied, hl, length_append]
    exact (h.applied_le m).trans (Nat.le_add_right _ _)
  bufEnd_lt m := by
    rcases hq.buffer m with ⟨-, h2⟩ | h0
    · exact h2 ▸ h.bufEnd_lt m
    · rw [h0]
      decide
  known id hid := by
    have hres : Reserved s id := by
      rcases hid with hid | ⟨m, hid⟩
      · exact .inl (hq.issued ▸ hid)
      · exact .inr ⟨m, hq.inBuffer hid⟩
    exact (h.known id hres).mono hq.scheduler (fun m _ => (hq.nextID m).ge)
      (fun m => (hq.applied m).ge) hq.committed hq.taken.ge
  nodup := hq.issued ▸ h.nodup
  fresh m id hid := by
    rw [hq.issued]
    exact h.fresh m id (hq.inBuffer hid)
  disjoint m m' id h1 h2 := h.disjoint m m' id (hq.inBuffer h1) (hq.inBuffer h2)

theorem Inv.takeID (hlt : (s.nodes n).bufNext < (s.nodes n).bufEnd) : Inv (s.takeID n) := by
  have hmod : ((s.nodes n).bufNext + 1) % word = (s.nodes n).bufNext + 1 :=
    Nat.mod_eq_of_lt (Nat.lt_of_le_of_lt hlt (h.bufEnd_lt n))
  have hself : InBuffer (s.nodes n) (s.nodes n).bufNext := ⟨le_rfl, hlt⟩
  have hnode : ∀ m, (s.takeID n).nodes m =
      if m = n then { s.nodes n with bufNext := (s.nodes n).bufNext + 1 } else s.nodes m := by
    intro m
    rw [← hmod]
    exact setNode_nodes _ m
  -- what is left in a buffer was there before, and is not the ID handed out
  have hbuf : ∀ m id, InBuffer ((s.takeID n).nodes m) id →
      InBuffer (s.nodes m) id ∧ id ≠ (s.nodes n).bufNext := by
    intro m id hid
    rw [hnode] at hid
    split at hid
    · rename_i hm
      subst hm
      exact ⟨⟨(Nat.le_succ _).trans hid.1, hid.2⟩, (Nat.lt_of_succ_le hid.1).ne'⟩
    · rename_i hm
      refine ⟨hid, fun heq => hm ?_⟩
      exact h.disjoint m n id hid (heq ▸ hself)
  have hsame : ∀ m, ((s.takeID n).nodes m).nextID = (s.nodes m).nextID ∧
      ((s.takeID n).nodes m).applied = (s.nodes m).applied ∧
      ((s.takeID n).nodes m).bufEnd = (s.nodes m).bufEnd := fun m =>
    ⟨setNode_same Node.nextID (by rfl) m, setNode_same Node.applied (by rfl) m,
      setNode_same Node.bufEnd (by rfl) m⟩
  constructor
  · intro m hm
    rw [(hsame m).1, (hsame m).2.1]
    exact h.follows m hm
  · intro m
    rw [(hsame m).2.1]
    exact h.applied_le m
  · intro m
    rw [(hsame m).2.2]
    exact h.bufEnd_lt m
  · intro id hid
    have hres : Reserved s id := by
      rcases hid with hid | ⟨m, hid⟩
      · rcases List.mem_cons.mp hid with rfl | hid
        · exact Or.inr ⟨n, hself⟩
        · exact Or.inl hid
      · exact Or.inr ⟨m, (hbuf m id hid).1⟩
    exact (h.known id hres).mono rfl (fun m _ => (hsame m).1.ge) (fun m => (hsame m).2.1.ge)
      ⟨[], by simp [State.takeID, State.setNode]⟩ le_rfl
  · exact List.nodup_cons.mpr ⟨h.fresh n _ hself, h.nodup⟩
  · intro m id hid
    obtain ⟨hid', hne⟩ := hbuf m id hid
    exact List.not_mem_cons_of_ne_of_not_mem hne (h.fresh m id hid')
  · exact fun m m' id h1 h2 => h.disjoint m m' id (hbuf m id h1).1 (hbuf m' id h2).1

theorem Inv.refill {taken : ℕ} (h1 : x.nextID = (s.nodes n).nextID)
    (h2 : x.applied = (s.nodes n).applied) (hend : x.bufEnd < word)
    (htaken : s.taken ≤ taken) (hfresh : ∀ id, InBuffer x id → ¬Reserved s id)
    (hknown : ∀ id, InBuffer x id → Known { s with taken := taken } id) :
    Inv { s.setNode n x with taken := taken } := by
  have hnode := setNode_nodes (s := s) (n := n) x
  have hsame : ∀ m, ((s.setNode n x).nodes m).nextID = (s.nodes m).nextID ∧
      ((s.setNode n x).nodes m).applied = (s.nodes m).applied := fun m =>
    ⟨setNode_same nextID h1 m, setNode_same applied h2 m⟩
  have hbuf : ∀ m id, InBuffer ((s.setNode n x).nodes m) id →
      m = n ∧ InBuffer x id ∨ m ≠ n ∧ InBuffer (s.nodes m) id := by
    intro m id hid
    rw [hnode] at hid
    split at hid
    · exact .inl ⟨‹m = n›, hid⟩
    · exact .inr ⟨‹¬m = n›, hid⟩
  have hmono : ∀ id, Known { s with taken := taken } id →
      Known { s.setNode n x with taken := taken } id := fun id hid =>
    hid.mono rfl (fun m _ => (hsame m).1.ge) (fun m => (hsame m).2.ge)
      ⟨[], by simp [setNode]⟩ le_rfl
  constructor
  · intro m hm
    change ((s.setNode n x).nodes m).nextID = base s.committed ((s.setNode n x).nodes m).applied
    rw [(hsame m).1, (hsame m).2]
    exact h.follows m hm
  · intro m
    change ((s.setNode n x).nodes m).applied ≤ _
    rw [(hsame m).2]
    exact h.applied_le m
  · intro m
    change ((s.setNode n x).nodes m).bufEnd < word
    rw [hnode]
    split
    · exact hend
    · exact h.bufEnd_lt m
  · intro id hid
    have hold : Reserved s id → Known { s.setNode n x with taken := taken } id := fun hres =>
      hmono id ((h.known id hres).mono rfl (fun _ _ => le_rfl) (fun _ => le_rfl)
        ⟨[], by simp⟩ htaken)
    rcases hid with hid | ⟨m, hid⟩
    · exact hold (.inl hid)
    · rcases hbuf m id hid with ⟨-, hid⟩ | ⟨-, hid⟩
      · exact hmono id (hknown id hid)
      · exact hold (.inr ⟨m, hid⟩)
  · exact h.nodup
  · intro m id hid
    rcases hbuf m id hid with ⟨-, hid⟩ | ⟨-, hid⟩
    · exact fun hiss => hfresh id hid (.inl hiss)
    · exact h.fresh m id hid
  · intro m m' id hm hm'
    rcases hbuf m id hm with ⟨rfl, hid⟩ | ⟨-, hid⟩ <;>
      rcases hbuf m' id hm' with ⟨hm', hid'⟩ | ⟨-, hid'⟩
    · exact hm'.symm
    · exact absurd (.inr ⟨m', hid'⟩) (hfresh id hid)
    · exact absurd (.inr ⟨m, hid⟩) (hfresh id hid')
    · exact h.disjoint m m' id hid hid'

theorem Inv.advance (he : s.committed[(s.nodes n).applied]? = some e)
    (h1 : x.nextID = (s.nodes n).nextID + e.cmd.size) (h2 : x.applied = (s.nodes n).applied + 1)
    (h3 : x.bufNext = (s.nodes n).bufNext ∧ x.bufEnd = (s.nodes n).bufEnd) :
    Inv (s.setNode n x) := by
  have hnode := setNode_nodes (s := s) (n := n) x
  have hgrow : ∀ m, (s.nodes m).nextID ≤ ((s.setNode n x).nodes m).nextID ∧
      (s.nodes m).applied ≤ ((s.setNode n x).nodes m).applied := by
    intro m
    rw [hnode]
    split
    · rename_i hm
      subst hm
      omega
    · exact ⟨le_rfl, le_rfl⟩
  have hin := inBuffer_setNode (s := s) (n := n) h3
  constructor
  · intro m hm
    rw [hnode]
    split
    · rename_i hmn
      subst hmn
      rw [h1, h2, h.follows m hm]
      exact (base_succ he).symm
    · exact h.follows m hm
  · intro m
    rw [hnode]
    split
    · rw [h2]
      exact (List.getElem?_eq_some_iff.mp he).1
    · exact h.applied_le m
  · intro m
    rw [setNode_same Node.bufEnd h3.2]
    exact h.bufEnd_lt m
  · intro id hid
    have hres : Reserved s id := hid.imp_right fun ⟨m, hm⟩ => ⟨m, (hin m id).mp hm⟩
    exact (h.known id hres).mono rfl (fun m _ => (hgrow m).1) (fun m => (hgrow m).2)
      ⟨[], by simp [State.setNode]⟩ le_rfl
  · exact h.nodup
  · exact fun m id hid => h.fresh m id ((hin m id).mp hid)
  · exact fun m m' id h1 h2 => h.disjoint m m' id ((hin m id).mp h1) ((hin m' id).mp h2)

theorem Inv.lt_nextID (hsole : Sole s n) (htaken : s.taken ≤ (s.nodes n).applied)
    (hid : Reserved s id) : id < (s.nodes n).nextID := by
  obtain ⟨hbatch, hbelow⟩ := h.known id hid
  rcases hsole with hs | hs
  · obtain ⟨j, e, he, -, hj, -, hlt⟩ := hbatch hs
    rw [h.follows n (by simp [hs])]
    exact hlt.trans_le (base_mono _ (Nat.le_trans hj htaken))
  · exact hbelow n hs

theorem Inv.schedule (hmay : MaySchedule s n) {scheduling : ℕ} : Inv ((s.setNode n { s.nodes n with
      nextID := ((s.nodes n).nextID + 1) % word
      scheduling := scheduling }).scheduled n [(s.nodes n).nextID]) := by
  obtain ⟨hsole, htaken, hlt⟩ := hmay
  have hbelow : ∀ id, Reserved s id → id < (s.nodes n).nextID :=
    fun _ hid => h.lt_nextID hsole htaken hid
  rw [Nat.mod_eq_of_lt hlt]
  set x : Node := { s.nodes n with
    nextID := (s.nodes n).nextID + 1
    scheduling := scheduling } with hx
  have hnode := setNode_nodes (s := s) (n := n) x
  have hin := inBuffer_setNode (s := s) (n := n) (x := x) ⟨rfl, rfl⟩
  have hnew : ¬Reserved s (s.nodes n).nextID := fun hres => lt_irrefl _ (hbelow _ hres)
  constructor
  · intro m hm
    have hmn : m ≠ n := fun hmn => hm (by simp [scheduled, hmn])
    have hnone : s.scheduler ≠ some m := by
      rcases hsole with hs | hs
      · simp [hs]
      · rw [hs]
        simpa using Ne.symm hmn
    change ((s.setNode n x).nodes m).nextID = base s.committed ((s.setNode n x).nodes m).applied
    rw [hnode, if_neg hmn]
    exact h.follows m hnone
  · intro m
    change ((s.setNode n x).nodes m).applied ≤ _
    rw [setNode_same applied (by rfl)]
    exact h.applied_le m
  · intro m
    change ((s.setNode n x).nodes m).bufEnd < word
    rw [setNode_same bufEnd (by rfl)]
    exact h.bufEnd_lt m
  · intro id hid
    have hle : id ≤ (s.nodes n).nextID := by
      rcases hid with hid | ⟨m, hid⟩
      · rcases mem_cons.mp hid with rfl | hid
        · exact le_rfl
        · exact (hbelow id (.inl hid)).le
      · exact (hbelow id (.inr ⟨m, (hin m id).mp hid⟩)).le
    refine ⟨fun hs => absurd hs (by simp [scheduled]), fun m hm => ?_⟩
    obtain rfl : n = m := by simpa [scheduled] using hm
    change id < ((s.setNode n x).nodes n).nextID
    rw [hnode, if_pos rfl]
    exact Nat.lt_succ_of_le hle
  · exact nodup_cons.mpr ⟨fun hid => hnew (.inl hid), h.nodup⟩
  · intro m id hid
    have hid' := (hin m id).mp hid
    refine not_mem_cons_of_ne_of_not_mem ?_ (h.fresh m id hid')
    rintro rfl
    exact hnew (.inr ⟨m, hid'⟩)
  · exact fun m m' id h1 h2 => h.disjoint m m' id ((hin m id).mp h1) ((hin m' id).mp h2)

theorem Inv.batch_fresh (hsole : Sole s n)
    (he : s.committed[(s.nodes n).applied]? = some e) (hown : e.owner = n)
    (hle : (s.nodes n).nextID ≤ id) (hlt : id < (s.nodes n).nextID + e.cmd.size) :
    ¬Reserved s id := by
  intro hres
  obtain ⟨hbatch, hbelow⟩ := h.known id hres
  rcases hsole with hs | hs
  · obtain ⟨j, e', he', hj, -, h1, h2⟩ := hbatch hs
    have hnext := h.follows n (by simp [hs])
    have hend := base_succ he
    rcases Nat.lt_trichotomy j (s.nodes n).applied with hlt' | rfl | hgt
    · have hm := base_mono s.committed (show j + 1 ≤ (s.nodes n).applied from hlt')
      omega
    · -- the entry is the proposer's own, which has not applied it
      obtain rfl : e = e' := some.inj (he.symm.trans he')
      rw [hown] at hj
      exact lt_irrefl _ hj
    · have hm := base_mono s.committed (show (s.nodes n).applied + 1 ≤ j from hgt)
      omega
  · exact absurd hle (not_le.mpr (hbelow n hs))

theorem Inv.batch_known (hsole : Sole s n) {taken : ℕ}
    (he : s.committed[(s.nodes n).applied]? = some e) (hown : e.owner = n)
    (h1 : x.nextID = (s.nodes n).nextID + e.cmd.size) (h2 : x.applied = (s.nodes n).applied + 1)
    (htaken : (s.nodes n).applied + 1 ≤ taken) (hle : (s.nodes n).nextID ≤ id)
    (hlt : id < (s.nodes n).nextID + e.cmd.size) :
    Known { s.setNode n x with taken := taken } id := by
  have hnode : (s.setNode n x).nodes n = x := by rw [setNode_nodes, if_pos rfl]
  refine ⟨fun hs => ?_, fun m hm => ?_⟩
  · have hnext : (s.nodes n).nextID = base s.committed (s.nodes n).applied :=
      h.follows n (by rw [show s.scheduler = none from hs]; simp)
    have hsucc := base_succ he
    refine ⟨(s.nodes n).applied, e, he, ?_, htaken, ?_, ?_⟩
    · rw [hown]
      change (s.nodes n).applied < ((s.setNode n x).nodes n).applied
      rw [hnode, h2]
      exact Nat.lt_succ_self _
    · change base s.committed (s.nodes n).applied ≤ id
      omega
    · change id < base s.committed ((s.nodes n).applied + 1)
      omega
  · have hmn : n = m := by
      rcases hsole with hs | hs
      · exact absurd (hs.symm.trans hm) (by simp)
      · exact some.inj (hs.symm.trans hm)
    subst hmn
    change id < ((s.setNode n x).nodes n).nextID
    rw [hnode, h1]
    exact hlt

end

theorem refill_range {c : ℕ} (h : c + idBatchSize < word) :
    (x.refill (c + idBatchSize - 1)).bufNext = c ∧
      (x.refill (c + idBatchSize - 1)).bufEnd = c + idBatchSize := by
  simp only [refill, idBatchSize, word] at h ⊢
  omega

theorem Inv.apply (h : Inv s) (hp : Proposals s) {order : List Bool}
    (he : s.committed[(s.nodes n).applied]? = some e)
    (hcount : order.count true = e.cmd.size) (hmay : MayApply s n order) :
    Inv (s.apply n e order) := by
  obtain ⟨hno, hlt, hcalled⟩ := hmay
  have hlen : order.length = e.cmd.size := by
    rw [← hcount, eq_comm, List.count_eq_length]
    intro b hb
    cases b
    · exact absurd hb hno
    · rfl
  have halloc := @allocs_alone order _ 0 hno hlt
  set x := s.nodes n with hx
  have hadv : (x.advance order).nextID = x.nextID + e.cmd.size ∧
      (x.advance order).applied = x.applied + 1 := by
    simp [Node.advance, halloc, hlen]
  have hs₁ : (s.setNode n (x.advance order)).scheduled n (allocs x.nextID 0 order).2.2 =
      s.setNode n (x.advance order) := by
    simp [halloc, State.scheduled]
  have hinv₁ : Inv (s.setNode n (x.advance order)) :=
    h.advance he hadv.1 hadv.2 ⟨rfl, rfl⟩
  have hnode₁ : (s.setNode n (x.advance order)).nodes n = x.advance order := by
    rw [setNode_nodes, if_pos rfl]
  unfold State.apply
  dsimp only
  rw [← hx, hs₁]
  cases hc : x.called with
  | none => exact hinv₁
  | some wait =>
    obtain ⟨hsole, hent⟩ := hcalled wait (by simp [hc])
    obtain ⟨hown, hcb⟩ := hent e he
    have hcmd := hp.committed e (List.mem_of_getElem? he) wait hcb
    have hsize : e.cmd.size = idBatchSize := by
      rw [hcmd]
      rfl
    have hne : order ≠ [] := by
      rintro rfl
      rw [hsize] at hlen
      exact absurd hlen (by decide)
    have hres : e.cmd.result x.nextID order = some (x.nextID + idBatchSize - 1) := by
      rw [hcmd, Command.result, halloc]
      simp [hne, hlen, hsize]
    rw [hres]
    dsimp only
    rw [hlen, hsize] at hlt
    obtain ⟨hnext, hend⟩ := refill_range (x := x.advance order) hlt
    have hin : ∀ id, InBuffer ((x.advance order).refill (x.nextID + idBatchSize - 1)) id →
        x.nextID ≤ id ∧ id < x.nextID + e.cmd.size := by
      intro id hid
      rwa [InBuffer, hnext, hend, ← hsize] at hid
    refine Inv.takeID (Inv.refill hinv₁ (by rw [hnode₁]; rfl) (by rw [hnode₁]; rfl)
      (by rwa [hend]) (le_max_left s.taken (x.applied + 1)) (fun id hid => ?_)
      fun id hid => ?_) ?_
    · obtain ⟨h1, h2⟩ := hin id hid
      intro hres'
      refine h.batch_fresh hsole he hown h1 h2 (hres'.imp_right fun ⟨m, hm⟩ => ⟨m, ?_⟩)
      exact (inBuffer_setNode (by exact ⟨rfl, rfl⟩) m id).mp hm
    · obtain ⟨h1, h2⟩ := hin id hid
      exact h.batch_known hsole he hown hadv.1 hadv.2 (le_max_right _ _) h1 h2
    · rw [show ({ (s.setNode n (x.advance order)).setNode n
          ((x.advance order).refill (x.nextID + idBatchSize - 1)) with
          taken := max s.taken (x.applied + 1) } : State).nodes n =
          (x.advance order).refill (x.nextID + idBatchSize - 1) from Function.update_self _ _ _,
        hnext, hend]
      exact Nat.lt_add_of_pos_right (by decide)

theorem Proposals.setNode (h : Proposals s) (hx : ∀ m ∈ x.mailbox, Sized m.1 m.2) :
    Proposals (s.setNode n x) where
  mailbox m := by
    rw [setNode_nodes]
    split
    · exact hx
    · exact h.mailbox m
  proposed := h.proposed
  committed := h.committed

theorem Proposals.takeID (h : Proposals s) : Proposals (s.takeID n) :=
  have h' := h.setNode (n := n) (x := { s.nodes n with
    bufNext := ((s.nodes n).bufNext + 1) % word }) (h.mailbox n)
  ⟨h'.mailbox, h'.proposed, h'.committed⟩

theorem Proposals.apply {order : List Bool} (h : Proposals s) : Proposals (s.apply n e order) := by
  have h₁ : Proposals ((s.setNode n ((s.nodes n).advance order)).scheduled n
      (allocs (s.nodes n).nextID 0 order).2.2) :=
    have h' := h.setNode (n := n) (x := (s.nodes n).advance order) (h.mailbox n)
    ⟨h'.mailbox, h'.proposed, h'.committed⟩
  unfold State.apply
  dsimp only
  split
  · exact h₁
  · exact h₁.setNode (h.mailbox n)
  · rename_i lastID _ _
    have h₂ := h₁.setNode (n := n) (x := ((s.nodes n).advance order).refill lastID)
      (h.mailbox n)
    exact Proposals.takeID ⟨h₂.mailbox, h₂.proposed, h₂.committed⟩

theorem Proposals.step {a : Action} (h : Proposals s) (hs : step s a = some s') : Proposals s' := by
  have hsnoc : ∀ {n : ℕ} {c : Callback} {cmd : Command}, Sized c cmd →
      ∀ m ∈ (s.nodes n).mailbox ++ [(c, cmd)], Sized m.1 m.2 := by
    intro n c cmd hc m hm
    rcases mem_append.mp hm with hm | hm
    · exact h.mailbox n m hm
    · rw [mem_singleton.mp hm]
      exact hc
  cases a with
  | setLeader n lead =>
    obtain ⟨-, rfl⟩ := of_guard hs
    exact h.setNode (h.mailbox n)
  | alloc n =>
    obtain ⟨-, hs⟩ := ite_none_right_eq_some.mp hs
    split at hs <;> cases hs
    · exact h.takeID
    · refine h.setNode ?_
      unfold startRefill
      split
      · exact hsnoc fun _ _ => rfl
      · exact h.mailbox n
  | heartbeat n =>
    obtain ⟨-, rfl⟩ := of_guard hs
    exact h.setNode (hsnoc fun _ hw => absurd hw (by simp))
  | proposeOther n result =>
    cases hs
    exact h.setNode (hsnoc fun _ hw => absurd hw (by simp))
  | propose n accepted =>
    rw [PdIds.step] at hs
    cases hm : (s.nodes n).mailbox with
    | nil => simp [hm] at hs
    | cons m rest =>
      obtain ⟨callback, cmd⟩ := m
      have hall := h.mailbox n
      rw [hm] at hall
      obtain ⟨hhead, hrest⟩ := forall_mem_cons.mp hall
      simp only [hm] at hs
      split at hs <;> cases hs
      · have h' := h.setNode (n := n) (x := { s.nodes n with
          mailbox := rest
          pendingProposals := (s.nodes n).pendingProposals ++ [callback] }) hrest
        refine ⟨h'.mailbox, fun e he => ?_, h.committed⟩
        rcases mem_append.mp he with he | he
        · exact h.proposed e he
        · rw [mem_singleton.mp he]
          exact hhead
      · exact h.setNode hrest
  | abort n =>
    cases hs
    exact h.setNode (h.mailbox n)
  | commit i =>
    obtain ⟨e, he, rfl⟩ := map_eq_some_iff.mp hs
    refine ⟨h.mailbox, h.proposed, fun e' he' => ?_⟩
    rcases mem_append.mp he' with he' | he'
    · exact h.committed e' he'
    · rw [mem_singleton.mp he']
      exact h.proposed e (mem_of_getElem? he)
  | apply n order =>
    rw [PdIds.step] at hs
    split at hs
    · cases hs
    · obtain ⟨-, rfl⟩ := of_guard hs
      exact h.apply
  | schedule n =>
    obtain ⟨-, rfl⟩ := of_guard hs
    have h' := h.setNode (n := n) (x := { s.nodes n with
      nextID := ((s.nodes n).nextID + 1) % word
      scheduling := (s.nodes n).scheduling - 1 }) (h.mailbox n)
    exact ⟨h'.mailbox, h'.proposed, h'.committed⟩

theorem Inv.step {a : Action} (h : Inv s) (hp : Proposals s) (ho : Orderly s a)
    (hs : step s a = some s') : Inv s' := by
  cases a with
  | setLeader n lead =>
    obtain ⟨-, rfl⟩ := of_guard hs
    exact h.quiet (.setNode rfl rfl (.inr rfl))
  | alloc n =>
    obtain ⟨-, hs⟩ := ite_none_right_eq_some.mp hs
    by_cases hlt : (s.nodes n).bufNext < (s.nodes n).bufEnd
    · rw [if_pos hlt] at hs
      cases hs
      exact h.takeID hlt
    · rw [if_neg hlt] at hs
      cases hs
      unfold startRefill
      split
      · exact h.quiet (.setNode rfl rfl (.inl ⟨rfl, rfl⟩))
      · exact h.quiet (.setNode rfl rfl (.inl ⟨rfl, rfl⟩))
  | heartbeat n =>
    obtain ⟨-, rfl⟩ := of_guard hs
    exact h.quiet (.setNode rfl rfl (.inl ⟨rfl, rfl⟩))
  | proposeOther n result =>
    cases hs
    exact h.quiet (.setNode rfl rfl (.inl ⟨rfl, rfl⟩))
  | propose n accepted =>
    rw [PdIds.step] at hs
    split at hs
    · cases hs
    · rename_i callback cmd rest hm
      split at hs <;> cases hs
      · have hq : Quiet s (s.setNode n { s.nodes n with
            mailbox := rest
            pendingProposals := (s.nodes n).pendingProposals ++ [callback] }) :=
          .setNode rfl rfl (.inl ⟨rfl, rfl⟩)
        exact h.quiet ⟨hq.nextID, hq.applied, hq.buffer, hq.committed, rfl, rfl, rfl⟩
      · exact h.quiet (.setNode rfl rfl (.inl ⟨rfl, rfl⟩))
  | abort n =>
    cases hs
    exact h.quiet (.setNode rfl rfl (.inl ⟨rfl, rfl⟩))
  | commit i =>
    obtain ⟨e, -, rfl⟩ := map_eq_some_iff.mp hs
    exact h.quiet ⟨fun _ => rfl, fun _ => rfl, fun _ => .inl ⟨rfl, rfl⟩, ⟨[e], rfl⟩, rfl, rfl,
      rfl⟩
  | apply n order =>
    rw [PdIds.step] at hs
    split at hs
    · cases hs
    · rename_i e he
      obtain ⟨⟨hcount, -, -⟩, rfl⟩ := of_guard hs
      exact h.apply hp he hcount ho
  | schedule n =>
    obtain ⟨-, rfl⟩ := of_guard hs
    exact h.schedule ho

theorem Inv.start : Inv system.start where
  follows _ _ := rfl
  applied_le _ := le_rfl
  bufEnd_lt _ := Nat.two_pow_pos 64
  known id hid := by
    rcases hid with hid | ⟨n, -, hid⟩
    · exact absurd hid (by simp [system])
    · exact absurd hid (Nat.not_lt_zero id)
  nodup := nodup_nil
  fresh _ id hid := absurd hid.2 (Nat.not_lt_zero id)
  disjoint _ _ id hid := absurd hid.2 (Nat.not_lt_zero id)

/-- **No ID is handed out twice** in a run in which a `refill` takes the batch of its own
command only, nobody allocates in the middle of a batch, and once a scheduler has
allocated its node is the only one that does. -/
theorem issued_nodup_of_sole (h : system.ReachableWhen Orderly s) : s.issued.Nodup :=
  (h.invariant (P := fun s => Inv s ∧ Proposals s)
    ⟨Inv.start, by simp [system], by simp [system], by simp [system]⟩
    fun _ _ _ hi ho hs => ⟨hi.1.step hi.2 ho hs, hi.2.step hs⟩).1.nodup

end

def orderlyRun : List Action :=
  [.setLeader 0 true, .alloc 0, .propose 0 true, .commit 0, .apply 0 (List.replicate 100 true),
    .alloc 0, .heartbeat 0, .propose 0 true, .commit 1, .apply 0 [], .schedule 0]

set_option maxRecDepth 2000 in
theorem issued_nodup_orderlyRun : ∃ s, system.ReachableWhen Orderly s ∧
    s.issued = [1100, 1001, 1000] ∧ s.issued.Nodup := by
  obtain ⟨s, hs, hids⟩ : ∃ s, system.runWhen Orderly system.start orderlyRun = some s ∧
      s.issued = [1100, 1001, 1000] := ⟨_, rfl, rfl⟩
  have hr := reachableWhen_of_run .start hs
  exact ⟨s, hr, hids, issued_nodup_of_sole hr⟩

def leaderChange : List Action :=
  [.setLeader 0 true, .heartbeat 0, .propose 0 true, .commit 0, .apply 0 [], .schedule 0,
    .setLeader 0 false, .setLeader 1 true, .apply 1 [], .alloc 1, .propose 1 true, .commit 1,
    .apply 1 (List.replicate 100 true)]

set_option maxRecDepth 2000 in
theorem issued_twice_reachable : ∃ s, system.Reachable s ∧ s.issued = [1000, 1000] := by
  obtain ⟨s, hs, hids⟩ : ∃ s, system.runFrom system.start leaderChange = some s ∧
      s.issued = [1000, 1000] := ⟨_, rfl, rfl⟩
  exact ⟨s, reachable_of_run .start hs, hids⟩

end PdIds
