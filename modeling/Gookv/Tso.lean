/-
Timestamps of a replicated PD.
-/
import Gookv.StepSystem

namespace Tso

structure Allocator where
  physical : ℕ
  logical : ℕ
  deriving DecidableEq

def Allocator.allocate (a : Allocator) (now now' count : ℕ) : Allocator :=
  let a₁ : Allocator := if a.physical < now then ⟨now, 0⟩ else a
  if 2 ^ 18 ≤ a₁.logical + count then ⟨max (a₁.physical + 1) now', count⟩
  else ⟨a₁.physical, a₁.logical + count⟩

def toUint64 (physical logical : ℤ) : ℕ :=
  (UInt64.ofInt physical <<< 18 ||| UInt64.ofInt logical).toNat

def Allocator.value (a : Allocator) : ℕ := a.physical * 2 ^ 18 + a.logical

theorem toUint64_eq {p l : ℕ} (hp : p < 2 ^ 46) (hl : l < 2 ^ 18) :
    toUint64 p l = p * 2 ^ 18 + l := by
  have hword : ∀ m : ℕ, m < 2 ^ 46 → (UInt64.ofInt m).toNat = m := by
    intro m hm
    rw [UInt64.ofInt, UInt64.toNat_ofNat']
    omega
  have hor := Nat.shiftLeft_add_eq_or_of_lt hl p
  rw [Nat.shiftLeft_eq] at hor
  have hshift : p <<< ((18 : UInt64).toNat % 64) % 2 ^ 64 = p * 2 ^ 18 := by
    rw [show (18 : UInt64).toNat % 64 = 18 from rfl, Nat.shiftLeft_eq]
    omega
  rw [toUint64, UInt64.toNat_or, UInt64.toNat_shiftLeft, hword p hp, hword l (by omega), hshift,
    hor]

theorem Allocator.allocate_spec {a : Allocator} {count : ℕ} (ha : a.logical < 2 ^ 18)
    (hcount : count < 2 ^ 18) (now now' : ℕ) : (a.allocate now now' count).logical < 2 ^ 18 ∧
      count ≤ (a.allocate now now' count).logical ∧
      a.value ≤ (a.allocate now now' count).value - count ∧
      now * 2 ^ 18 ≤ (a.allocate now now' count).value - count := by
  unfold allocate value
  by_cases hnow : a.physical < now
  · simp only [if_pos hnow, Nat.zero_add]
    rw [if_neg (by omega)]
    refine ⟨hcount, le_rfl, ?_, ?_⟩ <;> dsimp only <;> omega
  · simp only [if_neg hnow]
    split
    · have hmax := le_max_left (a.physical + 1) now'
      refine ⟨hcount, le_rfl, ?_, ?_⟩ <;> dsimp only <;> omega
    · refine ⟨?_, ?_, ?_, ?_⟩ <;> dsimp only <;> omega

theorem Allocator.allocate_physical_lt {a : Allocator} {now now' : ℕ} (count : ℕ)
    (ha : a.physical + 1 < 2 ^ 46) (hnow : now + 1 < 2 ^ 46) (hnow' : now' < 2 ^ 46) :
    (a.allocate now now' count).physical < 2 ^ 46 := by
  unfold allocate
  by_cases hlt : a.physical < now
  · simp only [if_pos hlt]
    split <;> dsimp only <;> omega
  · simp only [if_neg hlt]
    split <;> dsimp only <;> omega

inductive Command
  | tsoAllocate (batch : ℕ)
  | other
  deriving DecidableEq

structure Request where
  count : ℕ
  before : List ℕ
  deriving DecidableEq

structure Response where
  ts : ℕ
  before : List ℕ
  deriving DecidableEq

structure Wait where
  id : ℕ
  request : Request
  batch : ℕ
  deriving DecidableEq

/-- A PD node; a `refill` that gave up leaves its callback behind. -/
structure Node where
  clock : ℕ
  allocator : Allocator
  applied : ℕ
  isLeader : Bool
  streamOpen : Bool
  physical : ℕ
  logical : ℤ
  remain : ℕ
  waiting : Option Wait
  nextWait : ℕ
  mailbox : List (ℕ × ℕ)
  pendingProposals : List (Option ℕ)
  queue : List Request
  outbox : List Response
  deriving DecidableEq

structure State where
  nodes : ℕ → Node
  proposed : List Command
  committed : List Command
  sent : List ℕ
  responses : List Response
  holder : Option ℕ
  top : ℕ

inductive Action
  | tick (n clock : ℕ)
  | setLeader (n : ℕ) (lead : Bool)
  | openStream (n : ℕ)
  | recv (n count : ℕ)
  | getTS (n : ℕ)
  | propose (n : ℕ) (accepted : Bool)
  | proposeOther (n : ℕ)
  | abort (n : ℕ)
  | commit (i : ℕ)
  | apply (n clock : ℕ)
  | send (n : ℕ)

def tsoBatchSize : ℕ := 1000

def batchSize (count : ℕ) : ℕ := max tsoBatchSize count

def Node.nextTS (x : Node) (count : ℕ) : ℕ := toUint64 x.physical (x.logical + count)

def Node.serve (x : Node) (r : Request) : Node :=
  { x with
    logical := x.logical + r.count
    remain := x.remain - r.count
    outbox := x.outbox ++ [⟨x.nextTS r.count, r.before⟩] }

def State.setNode (s : State) (n : ℕ) (x : Node) : State :=
  { s with nodes := Function.update s.nodes n x }

def State.serve (s : State) (n : ℕ) (x : Node) (r : Request) : State :=
  { s.setNode n (x.serve r) with responses := s.responses ++ [⟨x.nextTS r.count, r.before⟩] }

def Node.refill (x : Node) (batch : ℕ) : Node :=
  { x with
    physical := x.allocator.physical
    logical := x.allocator.logical - batch
    remain := batch
    waiting := none }

def Allocator.applyCommand (a : Allocator) (now now' : ℕ) : Command → Allocator
  | .tsoAllocate batch => a.allocate now now' batch
  | .other => a

def Node.applyCommand (x : Node) (now' : ℕ) (cmd : Command) : Node :=
  { x with
    allocator := x.allocator.applyCommand x.clock now' cmd
    clock := now'
    applied := x.applied + 1
    pendingProposals := x.pendingProposals.tail }

def Node.called (x : Node) : Option Wait :=
  match x.pendingProposals with
  | some id :: _ => x.waiting.filter fun w => w.id = id
  | _ => none

def State.apply (s : State) (n : ℕ) (now' : ℕ) (cmd : Command) : State :=
  let x₁ := (s.nodes n).applyCommand now' cmd
  match (s.nodes n).called, cmd with
  | none, _ => s.setNode n x₁
  | some _, .other => s.setNode n { x₁ with waiting := none }
  | some w, .tsoAllocate _ =>
    { s with holder := some n, top := max s.top x₁.allocator.value }.serve n (x₁.refill w.batch)
      w.request

def State.getTS (s : State) (n : ℕ) (x : Node) (r : Request) : State :=
  if r.count ≤ x.remain then s.serve n x r
  else if x.isLeader then
    s.setNode n { x with
      waiting := some ⟨x.nextWait, r, batchSize r.count⟩
      nextWait := x.nextWait + 1
      mailbox := x.mailbox ++ [(x.nextWait, batchSize r.count)] }
  else s.setNode n x

/-! ### The system -/

def step (s : State) : Action → Option State
  | .tick n clock =>
    let x := s.nodes n
    some (s.setNode n { x with clock := max x.clock clock })
  | .setLeader n lead =>
    -- the leader change resets the buffer, for which it needs the mutex
    let x := s.nodes n
    if x.waiting = none ∧ x.isLeader ≠ lead then
      some (s.setNode n { x with
        isLeader := lead
        physical := 0
        logical := 0
        remain := 0
        pendingProposals := if lead then x.pendingProposals else [] })
    else none
  | .openStream n =>
    let x := s.nodes n
    if x.isLeader then some (s.setNode n { x with streamOpen := true }) else none
  | .recv n count =>
    let x := s.nodes n
    if x.streamOpen then
      some (s.setNode n { x with queue := x.queue ++ [⟨max 1 count, s.sent⟩] })
    else none
  | .getTS n =>
    let x := s.nodes n
    match x.waiting, x.queue with
    | none, r :: rest => some (s.getTS n { x with queue := rest } r)
    | _, _ => none
  | .propose n accepted =>
    let x := s.nodes n
    match x.mailbox with
    | [] => none
    | (id, batch) :: rest =>
      if accepted then
        some { s.setNode n { x with
            mailbox := rest
            pendingProposals := x.pendingProposals ++ [some id] } with
          proposed := s.proposed ++ [.tsoAllocate batch] }
      else
        some (s.setNode n { x with
          mailbox := rest
          waiting := x.waiting.filter fun w => w.id ≠ id })
  | .proposeOther n =>
    let x := s.nodes n
    some { s.setNode n { x with pendingProposals := x.pendingProposals ++ [none] } with
      proposed := s.proposed ++ [.other] }
  | .abort n =>
    let x := s.nodes n
    some (s.setNode n { x with waiting := none })
  | .commit i => (s.proposed[i]?).map fun cmd => { s with committed := s.committed ++ [cmd] }
  | .apply n clock =>
    if (s.nodes n).clock ≤ clock then
      (s.committed[(s.nodes n).applied]?).map fun cmd => s.apply n clock cmd
    else none
  | .send n =>
    let x := s.nodes n
    match x.outbox with
    | [] => none
    | r :: rest => some { s.setNode n { x with outbox := rest } with sent := r.ts :: s.sent }

def newNode : Node := ⟨0, ⟨0, 0⟩, 0, false, false, 0, 0, 0, none, 0, [], [], [], []⟩

def start : State := ⟨fun _ => newNode, [], [], [], [], none, 0⟩

def system : StepSystem State Action := ⟨start, step⟩

def Increasing (s : State) : Prop := ∀ r ∈ s.responses, ∀ t ∈ r.before, t < r.ts

def CaughtUp (s : State) (x : Node) : Prop :=
  s.top ≤ x.allocator.value ∨ s.top < x.clock * 2 ^ 18

instance (s : State) (x : Node) : Decidable (CaughtUp s x) := inferInstanceAs (Decidable (_ ∨ _))

/-- A `refill` takes the batch of its own command, on a node that has caught up. -/
def MayTake (s : State) (n clock : ℕ) : Prop :=
  let x := s.nodes n
  ∀ w ∈ x.called, ∀ cmd ∈ s.committed[x.applied]?, cmd ≠ .other →
    cmd = .tsoAllocate w.batch ∧ CaughtUp s x ∧ x.allocator.physical + 1 < 2 ^ 46 ∧
      x.clock + 1 < 2 ^ 46 ∧ clock < 2 ^ 46

instance (s : State) (n clock : ℕ) : Decidable (MayTake s n clock) :=
  inferInstanceAs (Decidable (∀ w ∈ (s.nodes n).called, ∀ cmd ∈ s.committed[(s.nodes n).applied]?,
    cmd ≠ Command.other → _ ∧ _ ∧ _ ∧ _ ∧ _))

def MayServe (s : State) (n : ℕ) : Prop :=
  ∀ r ∈ (s.nodes n).queue.head?, r.count ≤ (s.nodes n).remain → s.holder = some n

instance (s : State) (n : ℕ) : Decidable (MayServe s n) :=
  inferInstanceAs (Decidable (∀ r ∈ (s.nodes n).queue.head?, r.count ≤ (s.nodes n).remain → _))

def Orderly (s : State) : Action → Prop
  | .recv _ count => count < 2 ^ 18
  | .getTS n => MayServe s n
  | .apply n clock => MayTake s n clock
  | _ => True

instance (s : State) : (a : Action) → Decidable (Orderly s a)
  | .recv _ count => inferInstanceAs (Decidable (count < 2 ^ 18))
  | .getTS n => inferInstanceAs (Decidable (MayServe s n))
  | .apply n clock => inferInstanceAs (Decidable (MayTake s n clock))
  | .tick _ _ | .setLeader _ _ | .openStream _ | .propose _ _ | .proposeOther _ | .abort _
  | .commit _ | .send _ => isTrue trivial

end Tso
