/-
Latches: `internal/storage/txn/latch/latch.go`.
-/
import Gookv.StepSystem
import Gookv.TxnTypes

namespace Latch

open Function List Option StepSystem

abbrev CommandID := UInt64

structure LatchSlot where
  owner : CommandID
  waitQueue : List CommandID
  deriving DecidableEq

structure Lock where
  requiredHashes : List UInt64
  ownedCount : ℕ
  deriving DecidableEq

def hashKey (key : List UInt8) : UInt64 :=
  key.foldl (fun h b => (h ^^^ b.toUInt64) * 1099511628211) 14695981039346656037

def roundUp : ℕ → ℕ → ℕ → ℕ
  | 0, size, _ => size
  | fuel + 1, size, slotCount =>
    if size < slotCount then roundUp fuel (size * 2) slotCount else size

def new (slotCount : ℕ) : ℕ := roundUp slotCount 1 slotCount

def slotIdx (size : ℕ) (key : List UInt8) : UInt64 := hashKey key &&& UInt64.ofNat (size - 1)

def distinctSlots (size : ℕ) (keys : List (List UInt8)) : List UInt64 :=
  keys.foldl (fun hashes key =>
    if slotIdx size key ∈ hashes then hashes else hashes ++ [slotIdx size key]) []

def genLock (size : ℕ) (keys : List (List UInt8)) : Lock where
  requiredHashes := (distinctSlots size keys).insertionSort (· ≤ ·)
  ownedCount := 0

theorem distinctSlots_spec (size : ℕ) (keys : List (List UInt8)) : (distinctSlots size keys).Nodup ∧
      ∀ x, x ∈ distinctSlots size keys ↔ ∃ key ∈ keys, slotIdx size key = x := by
  rw [distinctSlots]
  induction keys using reverseRecOn with
  | nil => simp
  | append_singleton keys key ih =>
    obtain ⟨hnodup, hmem⟩ := ih
    rw [foldl_append, foldl_cons, foldl_nil]
    generalize keys.foldl _ _ = hashes at hnodup hmem
    constructor
    · split
      · exact hnodup
      · rename_i hnew
        rw [nodup_append]
        refine ⟨hnodup, nodup_singleton _, ?_⟩
        rintro x hx y hy rfl
        rw [mem_singleton] at hy
        exact hnew (hy ▸ hx)
    · intro x
      have hall : (∃ k ∈ keys ++ [key], slotIdx size k = x) ↔
          x ∈ hashes ∨ slotIdx size key = x := by
        rw [hmem]
        simp [or_and_right, exists_or]
      rw [hall]
      split
      · rename_i hold
        constructor
        · exact .inl
        · rintro (hx | rfl)
          · exact hx
          · exact hold
      · simp [eq_comm]

variable {size : ℕ}

theorem mem_genLock {keys : List (List UInt8)} {x : UInt64} :
    x ∈ (genLock size keys).requiredHashes ↔ ∃ key ∈ keys, slotIdx size key = x := by
  rw [genLock, mem_insertionSort, (distinctSlots_spec size keys).2]

theorem genLock_sorted (keys : List (List UInt8)) :
    (genLock size keys).requiredHashes.Pairwise (· < ·) := by
  have hle := pairwise_insertionSort (· ≤ ·) (distinctSlots size keys)
  have hnodup : ((distinctSlots size keys).insertionSort (· ≤ ·)).Nodup :=
    (perm_insertionSort _ _).nodup_iff.mpr (distinctSlots_spec size keys).1
  rw [genLock]
  exact (hle.and hnodup).imp fun h => lt_of_le_of_ne h.1 h.2

/-! ### Commands -/

inductive Phase
  | idle
  | acquiring (blocking : Bool)
  | waiting
  | acquired
  | releasing (i : ℕ) (wakeUp : List CommandID) (timedOut : Bool)
  | signalling (wakeUp : List CommandID) (loaded : Option (CommandID × ℕ)) (timedOut : Bool)
  deriving DecidableEq

structure Command where
  keys : List (List UInt8)
  lock : Lock
  phase : Phase
  ch : ℕ
  deriving DecidableEq

structure State where
  slots : UInt64 → LatchSlot
  commands : CommandID → Command
  waiters : CommandID → Option ℕ
  signals : List (CommandID × ℕ)

def Command.setPhase (cmd : Command) (phase : Phase) : Command := { cmd with phase := phase }

def Command.setOwned (cmd : Command) (n : ℕ) : Command :=
  { cmd with lock := { cmd.lock with ownedCount := n } }

def Command.want (cmd : Command) : Option UInt64 :=
  cmd.lock.requiredHashes[cmd.lock.ownedCount]?

namespace State

def put (s : State) (c : CommandID) (cmd : Command) : State :=
  { s with commands := update s.commands c cmd }

def setSlot (s : State) (x : UInt64) (slot : LatchSlot) : State :=
  { s with slots := update s.slots x slot }

def setWaiter (s : State) (c : CommandID) (ch : Option ℕ) : State :=
  { s with waiters := update s.waiters c ch }

def full (s : State) (c : CommandID) (ch : ℕ) : Bool := s.signals.contains (c, ch)

def setFull (s : State) (c : CommandID) (ch : ℕ) (b : Bool) : State :=
  let others := s.signals.filter (· != (c, ch))
  { s with signals := if b then (c, ch) :: others else others }

def generate (s : State) (size : ℕ) (c : CommandID) (keys : List (List UInt8)) : Option State :=
  let cmd := s.commands c
  if cmd.phase = .idle ∧ cmd.lock.ownedCount = 0 then
    some (s.put c { cmd with keys := keys, lock := genLock size keys })
  else none

def call (s : State) (c : CommandID) (phase : Phase) : Option State :=
  let cmd := s.commands c
  if cmd.phase = .idle ∨ cmd.phase = .acquired then some (s.put c (cmd.setPhase phase)) else none

def acquireBlocking (s : State) (c : CommandID) : Option State :=
  let cmd := s.commands c
  let ch := cmd.ch + 1
  if cmd.phase = .idle ∨ cmd.phase = .acquired then
    some (((s.put c { cmd.setPhase (.acquiring true) with ch := ch }).setWaiter c
      (some ch)).setFull c ch false)
  else none

def acquire (s : State) (c : CommandID) (blocking : Bool) : State :=
  let cmd := s.commands c
  match cmd.want with
  | none =>
    -- AcquireBlocking removes its channel before it returns
    let s' := s.put c (cmd.setPhase .acquired)
    if blocking then s'.setWaiter c none else s'
  | some x =>
    let slot := s.slots x
    if slot.owner = 0 ∨ slot.owner = c then
      (s.setSlot x { slot with owner := c }).put c (cmd.setOwned (cmd.lock.ownedCount + 1))
    else
      -- the command is appended also when it is in the queue already
      (s.setSlot x { slot with waitQueue := slot.waitQueue ++ [c] }).put c
        (cmd.setPhase (if blocking then .waiting else .idle))

def release (s : State) (c : CommandID) (i : ℕ) (wakeUp : List CommandID) (timedOut : Bool) :
    Option State :=
  let cmd := s.commands c
  if i < cmd.lock.ownedCount then
    match cmd.lock.requiredHashes[i]? with
    | none => none -- an index out of range
    | some x =>
      let slot := s.slots x
      if slot.owner = c then
        some ((s.setSlot x { owner := 0, waitQueue := slot.waitQueue.tail }).put c
          (cmd.setPhase (.releasing (i + 1) (wakeUp ++ slot.waitQueue.head?.toList) timedOut)))
      else some (s.put c (cmd.setPhase (.releasing (i + 1) wakeUp timedOut)))
  else
    -- only here, when no slot is left, is the count reset
    some (s.put c ((cmd.setOwned 0).setPhase (.signalling wakeUp none timedOut)))

open State

/-- The signals of `Release`: one to the channel of the next command unless there is one already. -/
def signal (s : State) (c : CommandID) (timedOut : Bool) :
    List CommandID → Option (CommandID × ℕ) → State
  | wakeUp, some (id, ch) =>
    (s.setFull id ch true).put c ((s.commands c).setPhase (.signalling wakeUp none timedOut))
  | id :: wakeUp, none =>
    s.put c ((s.commands c).setPhase
      (.signalling wakeUp ((s.waiters id).map fun ch => (id, ch)) timedOut))
  | [], none =>
    let s' := s.put c ((s.commands c).setPhase .idle)
    if timedOut then s'.setWaiter c none else s'

def wake (s : State) (c : CommandID) : Option State :=
  let cmd := s.commands c
  if s.full c cmd.ch = true then
    some ((s.setFull c cmd.ch false).put c (cmd.setPhase (.acquiring true)))
  else none

def timeout (s : State) (c : CommandID) : Option State :=
  let cmd := s.commands c
  if cmd.phase = .waiting then some (s.put c (cmd.setPhase (.releasing 0 [] true))) else none

def run (s : State) (c : CommandID) : Option State :=
  match (s.commands c).phase with
  | .acquiring blocking => some (s.acquire c blocking)
  | .waiting => s.wake c
  | .releasing i wakeUp timedOut => s.release c i wakeUp timedOut
  | .signalling wakeUp loaded timedOut => some (s.signal c timedOut wakeUp loaded)
  | .idle | .acquired => none

end State

@[simp] theorem setPhase_phase (cmd : Command) (phase : Phase) :
    (cmd.setPhase phase).phase = phase := rfl

@[simp] theorem setPhase_want (cmd : Command) (phase : Phase) :
    (cmd.setPhase phase).want = cmd.want := rfl

@[simp] theorem put_commands (s : State) (c d : CommandID) (cmd : Command) :
    (s.put c cmd).commands d = if d = c then cmd else s.commands d := by
  simp [State.put, update_apply]

@[simp] theorem put_slots (s : State) (c : CommandID) (cmd : Command) :
    (s.put c cmd).slots = s.slots := rfl

@[simp] theorem put_waiters (s : State) (c : CommandID) (cmd : Command) :
    (s.put c cmd).waiters = s.waiters := rfl

@[simp] theorem put_full (s : State) (c : CommandID) (cmd : Command) :
    (s.put c cmd).full = s.full := rfl

@[simp] theorem setSlot_slots (s : State) (x y : UInt64) (slot : LatchSlot) :
    (s.setSlot x slot).slots y = if y = x then slot else s.slots y := by
  simp [State.setSlot, update_apply]

@[simp] theorem setSlot_commands (s : State) (x : UInt64) (slot : LatchSlot) :
    (s.setSlot x slot).commands = s.commands := rfl

@[simp] theorem setSlot_waiters (s : State) (x : UInt64) (slot : LatchSlot) :
    (s.setSlot x slot).waiters = s.waiters := rfl

@[simp] theorem setSlot_full (s : State) (x : UInt64) (slot : LatchSlot) :
    (s.setSlot x slot).full = s.full := rfl

@[simp] theorem setWaiter_slots (s : State) (c : CommandID) (ch : Option ℕ) :
    (s.setWaiter c ch).slots = s.slots := rfl

@[simp] theorem setWaiter_commands (s : State) (c : CommandID) (ch : Option ℕ) :
    (s.setWaiter c ch).commands = s.commands := rfl

@[simp] theorem setWaiter_waiters (s : State) (c d : CommandID) (ch : Option ℕ) :
    (s.setWaiter c ch).waiters d = if d = c then ch else s.waiters d := by
  simp [State.setWaiter, update_apply]

@[simp] theorem setWaiter_full (s : State) (c : CommandID) (ch : Option ℕ) :
    (s.setWaiter c ch).full = s.full := rfl

@[simp] theorem setFull_slots (s : State) (c : CommandID) (ch : ℕ) (b : Bool) :
    (s.setFull c ch b).slots = s.slots := rfl

@[simp] theorem setFull_commands (s : State) (c : CommandID) (ch : ℕ) (b : Bool) :
    (s.setFull c ch b).commands = s.commands := rfl

@[simp] theorem setFull_waiters (s : State) (c : CommandID) (ch : ℕ) (b : Bool) :
    (s.setFull c ch b).waiters = s.waiters := rfl

@[simp] theorem setFull_full (s : State) (c d : CommandID) (ch k : ℕ) (b : Bool) :
    (s.setFull c ch b).full d k = if d = c ∧ k = ch then b else s.full d k := by
  rw [State.full, State.full, Bool.eq_iff_iff]
  by_cases h : d = c ∧ k = ch
  · cases b <;> simp [State.setFull, h]
  · cases b <;> simp [State.setFull, h]

inductive Action
  | genLock (keys : List (List UInt8))
  | acquire
  | acquireBlocking
  | release
  | timeout
  | run
  deriving DecidableEq

def step (size : ℕ) (s : State) : CommandID × Action → Option State
  | (c, action) =>
    if c = 0 then none
    else
      match action with
      | .genLock keys => s.generate size c keys
      | .acquire => s.call c (.acquiring false)
      | .acquireBlocking => s.acquireBlocking c
      | .release => s.call c (.releasing 0 [] false)
      | .timeout => s.timeout c
      | .run => s.run c

def system (slotCount : ℕ) : StepSystem State (CommandID × Action) where
  start :=
    { slots := fun _ => ⟨0, []⟩
      commands := fun _ => ⟨[], ⟨[], 0⟩, .idle, 0⟩
      waiters := fun _ => none
      signals := [] }
  step := step (new slotCount)

/-! ### What a step does -/

inductive Move (size : ℕ) (s : State) (c : CommandID) : Action → State → Prop
  | genLock (keys : List (List UInt8)) (hphase : (s.commands c).phase = .idle)
      (howned : (s.commands c).lock.ownedCount = 0) :
      Move size s c (.genLock keys)
        (s.put c { s.commands c with keys := keys, lock := Latch.genLock size keys })
  | acquire (hphase : (s.commands c).phase = .idle ∨ (s.commands c).phase = .acquired) :
      Move size s c .acquire (s.put c ((s.commands c).setPhase (.acquiring false)))
  | acquireBlocking
      (hphase : (s.commands c).phase = .idle ∨ (s.commands c).phase = .acquired) :
      Move size s c .acquireBlocking
        (((s.put c { (s.commands c).setPhase (.acquiring true) with
            ch := (s.commands c).ch + 1 }).setWaiter c (some ((s.commands c).ch + 1))).setFull c
          ((s.commands c).ch + 1) false)
  | complete (blocking : Bool) (hphase : (s.commands c).phase = .acquiring blocking)
      (hwant : (s.commands c).want = none) :
      Move size s c .run
        ((s.put c ((s.commands c).setPhase .acquired)).setWaiter c
          (if blocking then none else s.waiters c))
  | take (blocking : Bool) (x : UInt64) (hphase : (s.commands c).phase = .acquiring blocking)
      (hwant : (s.commands c).want = some x)
      (howner : (s.slots x).owner = 0 ∨ (s.slots x).owner = c) :
      Move size s c .run
        ((s.setSlot x { s.slots x with owner := c }).put c
          ((s.commands c).setOwned ((s.commands c).lock.ownedCount + 1)))
  | enqueue (blocking : Bool) (x : UInt64)
      (hphase : (s.commands c).phase = .acquiring blocking)
      (hwant : (s.commands c).want = some x) (hfree : (s.slots x).owner ≠ 0)
      (howner : (s.slots x).owner ≠ c) :
      Move size s c .run
        ((s.setSlot x { s.slots x with waitQueue := (s.slots x).waitQueue ++ [c] }).put c
          ((s.commands c).setPhase (if blocking then .waiting else .idle)))
  | wake (hphase : (s.commands c).phase = .waiting)
      (hfull : s.full c (s.commands c).ch = true) :
      Move size s c .run
        ((s.setFull c (s.commands c).ch false).put c
          ((s.commands c).setPhase (.acquiring true)))
  | timeout (hphase : (s.commands c).phase = .waiting) :
      Move size s c .timeout (s.put c ((s.commands c).setPhase (.releasing 0 [] true)))
  | release (hphase : (s.commands c).phase = .idle ∨ (s.commands c).phase = .acquired) :
      Move size s c .release (s.put c ((s.commands c).setPhase (.releasing 0 [] false)))
  | free (i : ℕ) (wakeUp : List CommandID) (timedOut : Bool) (x : UInt64)
      (hphase : (s.commands c).phase = .releasing i wakeUp timedOut)
      (hi : i < (s.commands c).lock.ownedCount)
      (hx : (s.commands c).lock.requiredHashes[i]? = some x)
      (howner : (s.slots x).owner = c) :
      Move size s c .run
        ((s.setSlot x { owner := 0, waitQueue := (s.slots x).waitQueue.tail }).put c
          ((s.commands c).setPhase (.releasing (i + 1)
            (wakeUp ++ (s.slots x).waitQueue.head?.toList) timedOut)))
  | skip (i : ℕ) (wakeUp : List CommandID) (timedOut : Bool) (x : UInt64)
      (hphase : (s.commands c).phase = .releasing i wakeUp timedOut)
      (hi : i < (s.commands c).lock.ownedCount)
      (hx : (s.commands c).lock.requiredHashes[i]? = some x)
      (howner : (s.slots x).owner ≠ c) :
      Move size s c .run
        (s.put c ((s.commands c).setPhase (.releasing (i + 1) wakeUp timedOut)))
  | endLoop (i : ℕ) (wakeUp : List CommandID) (timedOut : Bool)
      (hphase : (s.commands c).phase = .releasing i wakeUp timedOut)
      (hi : (s.commands c).lock.ownedCount ≤ i) :
      Move size s c .run
        (s.put c (((s.commands c).setOwned 0).setPhase (.signalling wakeUp none timedOut)))
  | load (id : CommandID) (wakeUp : List CommandID) (timedOut : Bool)
      (hphase : (s.commands c).phase = .signalling (id :: wakeUp) none timedOut) :
      Move size s c .run
        (s.put c ((s.commands c).setPhase
          (.signalling wakeUp ((s.waiters id).map fun ch => (id, ch)) timedOut)))
  | send (id : CommandID) (ch : ℕ) (wakeUp : List CommandID) (timedOut : Bool)
      (hphase : (s.commands c).phase = .signalling wakeUp (some (id, ch)) timedOut) :
      Move size s c .run
        ((s.setFull id ch true).put c
          ((s.commands c).setPhase (.signalling wakeUp none timedOut)))
  | finish (timedOut : Bool) (hphase : (s.commands c).phase = .signalling [] none timedOut) :
      Move size s c .run
        ((s.put c ((s.commands c).setPhase .idle)).setWaiter c
          (if timedOut then none else s.waiters c))

variable {s s' : State} {c : CommandID} {action : Action}

theorem State.setWaiter_self (s : State) (c : CommandID) : s.setWaiter c (s.waiters c) = s := by
  rw [setWaiter, update_eq_self]

theorem move_of_run (h : s.run c = some s') : Move size s c .run s' := by
  rw [State.run] at h
  split at h
  · rename_i blocking hphase
    rw [Option.some_inj] at h
    subst h
    rw [State.acquire]
    dsimp only
    split
    · rename_i hwant
      -- without AcquireBlocking the map keeps what it has for the command
      have hmove : Move size s c .run _ := .complete blocking hphase hwant
      cases blocking
      · rwa [if_neg Bool.false_ne_true, ← State.setWaiter_self (s.put c _) c]
      · exact hmove
    · rename_i x hwant
      split
      · rename_i howner
        exact .take blocking x hphase hwant howner
      · rename_i howner
        rw [not_or] at howner
        exact .enqueue blocking x hphase hwant howner.1 howner.2
  · rename_i hphase
    obtain ⟨hfull, rfl⟩ := StepSystem.of_guard h
    exact .wake hphase hfull
  · rename_i i wakeUp timedOut hphase
    rw [State.release] at h
    dsimp only at h
    split at h
    · rename_i hi
      split at h
      · cases h
      · rename_i x hx
        split at h
        · rename_i howner
          rw [Option.some_inj] at h
          subst h
          exact .free i wakeUp timedOut x hphase hi hx howner
        · rename_i howner
          rw [Option.some_inj] at h
          subst h
          exact .skip i wakeUp timedOut x hphase hi hx howner
    · rename_i hi
      rw [Option.some_inj] at h
      subst h
      exact .endLoop i wakeUp timedOut hphase (not_lt.mp hi)
  · rename_i wakeUp loaded timedOut hphase
    rw [Option.some_inj] at h
    subst h
    cases loaded with
    | some p => exact .send p.1 p.2 wakeUp timedOut hphase
    | none =>
      cases wakeUp with
      | cons id wakeUp => exact .load id wakeUp timedOut hphase
      | nil =>
        have hmove : Move size s c .run _ := .finish timedOut hphase
        rw [State.signal]
        cases timedOut
        · rwa [if_neg Bool.false_ne_true, ← State.setWaiter_self (s.put c _) c]
        · exact hmove
  · cases h
  · cases h

theorem move_of_step (h : step size s (c, action) = some s') : c ≠ 0 ∧ Move size s c action s' := by
  obtain ⟨hc, h⟩ := ite_none_left_eq_some.mp h
  refine ⟨hc, ?_⟩
  cases action with
  | genLock keys =>
    obtain ⟨⟨hphase, howned⟩, rfl⟩ := of_guard h
    exact .genLock keys hphase howned
  | acquire =>
    obtain ⟨hphase, rfl⟩ := of_guard h
    exact .acquire hphase
  | acquireBlocking =>
    obtain ⟨hphase, rfl⟩ := of_guard h
    exact .acquireBlocking hphase
  | release =>
    obtain ⟨hphase, rfl⟩ := of_guard h
    exact .release hphase
  | timeout =>
    obtain ⟨hphase, rfl⟩ := of_guard h
    exact .timeout hphase
  | run => exact move_of_run h

end Latch
