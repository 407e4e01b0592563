/-
How long a transaction may count on its primary lock.

The end of its time to live is a sum of 64-bit numbers, which wraps.
-/
import Gookv.Actions
import Gookv.StepSystem

open Txntypes Mvcc Txn

variable {ms : List Modify} {s : Store}

variable {t : TimeStamp} {advice ttl : UInt64}

namespace Txn

def txnHeartBeat (snap : Store) (primaryKey : Key) (startTS : TimeStamp) (adviseTTL : UInt64) :
    Except TxnError (UInt64 × List Modify) :=
  match loadLock snap primaryKey with
  | none => .error .txnLockNotFound
  | some lock =>
    if lock.startTS ≠ startTS then .error .txnLockNotFound
    else if lock.ttl < adviseTTL then
      .ok (adviseTTL, [.putLock primaryKey { lock with ttl := adviseTTL }])
    else .ok (lock.ttl, [])

def isExpired (lock : Lock) (currentTS : TimeStamp) : Bool :=
  physical lock.startTS + lock.ttl ≤ physical currentTS

theorem lockExpired_eq_isExpired (lock : Lock) (caller : TimeStamp) :
    lockExpired lock lock.startTS caller = isExpired lock caller := rfl

theorem txnHeartBeat_ok {k : Key} (h : txnHeartBeat s k t advice = .ok (ttl, ms)) :
    ∃ lock, (s k).lock = some lock ∧ lock.startTS = t ∧ ttl = max lock.ttl advice ∧
      (lock.ttl < advice ∧ Turns ms k (s k)
          { s k with lock := some ({ lock with ttl := ttl } : Lock).reload } ∨
        ¬ lock.ttl < advice ∧ ms = []) := by
  unfold txnHeartBeat loadLock at h
  cases hl : (s k).lock with
  | none => simp [hl] at h
  | some lock =>
    simp only [hl] at h
    split at h
    · cases h
    · rename_i ht
      refine ⟨lock, rfl, not_not.mp ht, ?_⟩
      split at h
      · rename_i hlt
        obtain ⟨rfl, rfl⟩ := Prod.mk.inj (Except.ok.inj h)
        exact ⟨(max_eq_right hlt.le).symm, .inl ⟨hlt, by simp [Modify.key], rfl⟩⟩
      · rename_i hlt
        obtain ⟨rfl, rfl⟩ := Prod.mk.inj (Except.ok.inj h)
        exact ⟨(max_eq_left (not_lt.mp hlt)).symm, .inr ⟨hlt, rfl⟩⟩

end Txn

namespace LockTtl

/-! ### Runs on a primary key -/

inductive Action
  | prewrite (props : PrewriteProps) (op : MutationOp) (value : Option Value)
  | heartBeat (startTS : TimeStamp) (adviseTTL : UInt64)
  | check (startTS callerStartTS : TimeStamp) (rollbackIfNotExist : Bool)

structure State where
  store : Store
  promised : TimeStamp → ℕ

def State.promise (st : State) (startTS : TimeStamp) (ttl : UInt64) : TimeStamp → ℕ :=
  Function.update st.promised startTS (max (st.promised startTS) ttl.toNat)

def step (primary : Key) (st : State) : Action → State
  | .prewrite props op value =>
    match prewrite st.store props ⟨op, primary, value⟩ with
    | .error _ => st
    | .ok ms => ⟨applyModifies st.store ms, st.promise props.startTS props.lockTTL⟩
  | .heartBeat startTS adviseTTL =>
    match txnHeartBeat st.store primary startTS adviseTTL with
    | .error _ => st
    | .ok (ttl, ms) => ⟨applyModifies st.store ms, st.promise startTS ttl⟩
  | .check startTS callerStartTS rollbackIfNotExist =>
    ⟨applyModifies st.store (checkTxnStatusWithCleanup st.store primary startTS callerStartTS
      rollbackIfNotExist).2, st.promised⟩

def system (primary : Key) (store : Store) : StepSystem State Action where
  start := ⟨store, fun _ => 0⟩
  step st a := some (step primary st a)

def State.lock (st : State) (primary : Key) : Option Lock := (st.store primary).lock

section

variable {p : Key} {st : State} {lock : Lock} {s₀ : Store}

theorem lock_applyModifies {r : Row}
    (h : Turns ms p (s p) r) : (applyModifies s ms p).lock = r.lock := by
  rw [h.applyModifies_eq, Function.update_self]

theorem prewrite_step {props : PrewriteProps} {op : MutationOp} {value : Option Value}
    (h : prewrite st.store props ⟨op, p, value⟩ = .ok ms) :
    (∃ lock, st.lock p = some lock ∧ lock.startTS = props.startTS ∧
      (applyModifies st.store ms p).lock = some lock) ∨
    (st.lock p = none ∧ ∃ lock, (applyModifies st.store ms p).lock = some lock ∧
      lock.startTS = props.startTS ∧ lock.ttl = props.lockTTL) := by
  rcases prewrite_ok h with ⟨lock, hl, ht, rfl⟩ | ⟨hl, -, hturns⟩
  · exact .inl ⟨lock, hl, ht, hl⟩
  · refine .inr ⟨hl, (props.lock ⟨op, p, value⟩).reload, ?_, rfl, rfl⟩
    rw [lock_applyModifies hturns, prewritten_lock]

theorem heartBeat_step (h : txnHeartBeat st.store p t advice = .ok (ttl, ms)) :
    ∃ lock lock', st.lock p = some lock ∧ (applyModifies st.store ms p).lock = some lock' ∧
      lock.startTS = t ∧ lock'.startTS = t ∧ lock'.ttl = ttl ∧ lock.ttl ≤ ttl := by
  obtain ⟨lock, hl, ht, rfl, ⟨-, hturns⟩ | ⟨hle, rfl⟩⟩ := txnHeartBeat_ok h
  · exact ⟨lock, _, hl, lock_applyModifies hturns, ht, ht, rfl, le_max_left _ _⟩
  · exact ⟨lock, lock, hl, hl, ht, ht, (max_eq_left (not_lt.mp hle)).symm, le_max_left _ _⟩

theorem check_step (p : Key) (st : State) (t caller : TimeStamp) (rb : Bool) :
    (step p st (.check t caller rb)).lock p = st.lock p ∨
      (step p st (.check t caller rb)).lock p = (st.lock p).filter fun lock => lock.startTS ≠ t := by
  have hstep : (step p st (.check t caller rb)).lock p = (applyModifies st.store
      (checkTxnStatusWithCleanup st.store p t caller rb).2 p).lock := rfl
  rw [hstep]
  rcases checkTxnStatusWithCleanup_cases st.store p t caller rb with
    ⟨_, -, -, h⟩ | ⟨-, ms, h, hturns⟩ | ⟨-, ⟨_, -, h⟩ | ⟨-, h⟩⟩
  · rw [h]
    exact .inl rfl
  · rw [h]
    refine .inr ?_
    rw [lock_applyModifies hturns, rolledBack_lock]
    rfl
  · rw [h]
    exact .inl rfl
  · rw [h]
    exact .inl rfl

theorem step_lock (hl : st.lock p = some lock) (a : Action) :
    (step p st a).lock p = none ∨ ∃ lock', (step p st a).lock p = some lock' ∧
      lock'.startTS = lock.startTS ∧ lock.ttl ≤ lock'.ttl := by
  cases a with
  | prewrite props op value =>
    rw [step]
    split
    · exact .inr ⟨lock, hl, rfl, le_rfl⟩
    · rename_i ms hok
      rcases prewrite_step hok with ⟨lock', hl', -, h⟩ | ⟨hnone, -⟩
      · obtain rfl := Option.some.inj (hl.symm.trans hl')
        exact .inr ⟨lock, h, rfl, le_rfl⟩
      · exact absurd (hl.symm.trans hnone) (by simp)
  | heartBeat t advice =>
    rw [step]
    split
    · exact .inr ⟨lock, hl, rfl, le_rfl⟩
    · rename_i ttl ms hok
      obtain ⟨lock₀, lock', hl₀, h, ht₀, ht', rfl, hle⟩ := heartBeat_step hok
      obtain rfl := Option.some.inj (hl.symm.trans hl₀)
      exact .inr ⟨lock', h, ht'.trans ht₀.symm, hle⟩
  | check t caller rb =>
    rcases check_step p st t caller rb with h | h
    · exact .inr ⟨lock, h.trans hl, rfl, le_rfl⟩
    · rw [h, hl]
      by_cases ht : lock.startTS = t
      · exact .inl (by simp [Option.filter, ht])
      · exact .inr ⟨lock, by simp [Option.filter, ht], rfl, le_rfl⟩

theorem ttl_le_of_run {as : List Action} {st' : State} (hl : st.lock p = some lock)
    (hheld : (system p s₀).AlwaysAfter (fun st => st.lock p ≠ none) st as)
    (hrun : (system p s₀).runFrom st as = some st') :
    ∃ lock', st'.lock p = some lock' ∧ lock'.startTS = lock.startTS ∧ lock.ttl ≤ lock'.ttl := by
  induction as generalizing st lock with
  | nil =>
    cases hrun
    exact ⟨lock, hl, rfl, le_rfl⟩
  | cons a as ih =>
    obtain ⟨hsome, hrest⟩ := hheld (step p st a) rfl
    rcases step_lock hl a with hnone | ⟨lock₁, hl₁, ht₁, hle₁⟩
    · exact absurd hnone hsome
    · obtain ⟨lock', hl', ht', hle'⟩ := ih hl₁ hrest hrun
      exact ⟨lock', hl', ht'.trans ht₁, hle₁.trans hle'⟩

def Steady (p : Key) (st : State) : Action → Prop
  | .prewrite props _ _ =>
    (∀ lock, st.lock p = some lock → props.lockTTL ≤ lock.ttl) ∧
      (st.lock p = none → st.promised props.startTS ≤ props.lockTTL.toNat)
  | _ => True

def Covered (p : Key) (st : State) : Prop :=
  ∀ lock, st.lock p = some lock → st.promised lock.startTS ≤ lock.ttl.toNat

theorem Covered.step (h : Covered p st) {a : Action} (ha : Steady p st a) :
    Covered p (step p st a) := by
  intro lock hlock
  cases a with
  | prewrite props op value =>
    rw [LockTtl.step] at hlock ⊢
    split at hlock
    · exact h lock hlock
    · rename_i ms hok
      show st.promise props.startTS props.lockTTL lock.startTS ≤ lock.ttl.toNat
      rcases prewrite_step hok with ⟨lock', hl', ht', hnew⟩ | ⟨hnone, lock', hnew, ht', httl⟩
      · obtain rfl := Option.some.inj (hlock.symm.trans hnew)
        rw [ht', State.promise, Function.update_self, ← ht']
        exact max_le (h lock hl') (UInt64.le_iff_toNat_le.mp (ha.1 lock hl'))
      · obtain rfl := Option.some.inj (hlock.symm.trans hnew)
        rw [ht', State.promise, Function.update_self, httl]
        exact max_le (ha.2 hnone) le_rfl
  | heartBeat t advice =>
    rw [LockTtl.step] at hlock ⊢
    split at hlock
    · exact h lock hlock
    · rename_i ttl ms hok
      show st.promise t ttl lock.startTS ≤ lock.ttl.toNat
      obtain ⟨lock₀, lock', hl₀, hnew, ht₀, ht', rfl, hle⟩ := heartBeat_step hok
      obtain rfl := Option.some.inj (hlock.symm.trans hnew)
      rw [ht', State.promise, Function.update_self, ← ht₀]
      exact max_le ((h lock₀ hl₀).trans (UInt64.le_iff_toNat_le.mp hle)) le_rfl
  | check t caller rb =>
    rcases check_step p st t caller rb with hsame | hless
    · exact h lock (hsame.symm.trans hlock)
    · rw [hless] at hlock
      exact h lock (Option.filter_eq_some_iff.mp hlock).1

theorem promised_le_of_steady (h : (system p s₀).ReachableWhen (Steady p) st) :
    Covered p st := by
  refine h.invariant (fun lock _ => Nat.zero_le _) fun st st' a hst ha hstep => ?_
  cases hstep
  exact hst.step ha

end

theorem physical_toNat (ts : TimeStamp) : (physical ts).toNat = ts.toNat / 2 ^ 18 := by
  rw [physical, UInt64.toNat_shiftRight, Nat.shiftRight_eq_div_pow]
  rfl

theorem physical_lt (ts : TimeStamp) : (physical ts).toNat < 2 ^ 46 := by
  rw [physical_toNat]
  have h := ts.toNat_lt
  omega

theorem exists_physical {x : ℕ} (hx : x < 2 ^ 46) : ∃ ts : TimeStamp, (physical ts).toNat = x := by
  refine ⟨UInt64.ofNat (x * 2 ^ 18), ?_⟩
  have hlt : x * 2 ^ 18 < UInt64.size := by
    rw [UInt64.size]
    omega
  rw [physical_toNat, UInt64.toNat_ofNat_of_lt' hlt]
  omega

theorem isExpired_iff (lock : Lock) (caller : TimeStamp) : isExpired lock caller = true ↔
      ((physical lock.startTS).toNat + lock.ttl.toNat) % 2 ^ 64 ≤ (physical caller).toNat := by
  rw [isExpired, decide_eq_true_eq, UInt64.le_iff_toNat_le, UInt64.toNat_add]

theorem check_isRolledBack {p : Key} {lock : Lock} (hl : (s p).lock = some lock)
    (caller : TimeStamp) (rb : Bool) :
    (checkTxnStatusWithCleanup s p lock.startTS caller rb).1.isRolledBack =
      isExpired lock caller := by
  have hown : (loadLock s p).filter (fun l => l.startTS = lock.startTS) = some lock := by
    simp [loadLock, hl, Option.filter]
  rw [checkTxnStatusWithCleanup, hown]
  dsimp only
  rw [lockExpired_eq_isExpired]
  split_ifs with h
  · exact h.symm
  · exact (Bool.not_eq_true _ ▸ h).symm

def ExpiresSoundly (lock : Lock) (promised : ℕ) : Prop :=
  (physical lock.startTS).toNat + lock.ttl.toNat < 2 ^ 64 ∧
    (promised ≤ lock.ttl.toNat ∨ 2 ^ 46 ≤ (physical lock.startTS).toNat + lock.ttl.toNat)

theorem expires_soundly_iff (lock : Lock) (promised : ℕ) : (∀ caller, isExpired lock caller = true →
      (physical lock.startTS).toNat + promised ≤ (physical caller).toNat) ↔
      ExpiresSoundly lock promised := by
  have hstart := physical_lt lock.startTS
  have httl := lock.ttl.toNat_lt
  simp only [isExpired_iff, ExpiresSoundly]
  generalize (physical lock.startTS).toNat = x at *
  generalize lock.ttl.toNat = ttl at *
  constructor
  · intro h
    -- the earliest caller for whom the lock has expired
    by_cases hlate : (x + ttl) % 2 ^ 64 < 2 ^ 46
    · obtain ⟨caller, hcaller⟩ := exists_physical hlate
      have hle := h caller hcaller.ge
      omega
    · omega
  · rintro ⟨hsum, hpromised⟩ caller hexpired
    have hcaller := physical_lt caller
    omega

/-- **The time to live of a primary lock.**  While the lock is there it does not decrease.
No status check rolls the transaction back before the time that it was promised if and only
if the sum of its start and its time to live does not wrap, and either covers the promise or
is beyond the clock.  The promise is covered if prewrites are repeated with the same time to
live at most. -/
theorem ttl_promise_iff (p : Key) (s₀ : Store) :
    (∀ (as : List Action) (st st' : State) (lock : Lock), st.lock p = some lock →
      (system p s₀).AlwaysAfter (fun st => st.lock p ≠ none) st as →
      (system p s₀).runFrom st as = some st' →
      ∃ lock', st'.lock p = some lock' ∧ lock'.startTS = lock.startTS ∧
        lock.ttl ≤ lock'.ttl) ∧
    (∀ (st : State) (lock : Lock), (system p s₀).Reachable st → st.lock p = some lock →
      ((∀ caller rb,
        (checkTxnStatusWithCleanup st.store p lock.startTS caller rb).1.isRolledBack = true →
        (physical lock.startTS).toNat + st.promised lock.startTS ≤ (physical caller).toNat) ↔
        ExpiresSoundly lock (st.promised lock.startTS))) ∧
    ∀ (st : State) (lock : Lock), (system p s₀).ReachableWhen (Steady p) st →
      st.lock p = some lock → st.promised lock.startTS ≤ lock.ttl.toNat := by
  refine ⟨fun as st st' lock hl hheld hrun => ttl_le_of_run hl hheld hrun,
    fun st lock _ hl => ?_, fun st lock hst hl => promised_le_of_steady hst lock hl⟩
  simp only [check_isRolledBack hl]
  rw [← expires_soundly_iff]
  exact ⟨fun h caller => h caller true, fun h caller _ => h caller⟩

def heartBeatRun : List Action :=
  [.prewrite { startTS := 262144000, primary := [1], lockTTL := 3000 } .put (some [7]),
    .heartBeat 262144000 9000]

theorem ttl_promise_iff_heartBeatRun :
    ∃ st lock, (system [1] Store.empty).Reachable st ∧ st.lock [1] = some lock ∧
      st.promised lock.startTS = 9000 ∧ ∀ caller rb,
        (checkTxnStatusWithCleanup st.store [1] lock.startTS caller rb).1.isRolledBack = true →
        (physical lock.startTS).toNat + st.promised lock.startTS ≤ (physical caller).toNat := by
  obtain ⟨st, lock, hrun, hl, hpromised, hsound⟩ : ∃ st lock,
      (system [1] Store.empty).runFrom (system [1] Store.empty).start heartBeatRun = some st ∧
      st.lock [1] = some lock ∧ st.promised lock.startTS = 9000 ∧
      ExpiresSoundly lock 9000 :=
    ⟨_, _, rfl, rfl, rfl, by unfold ExpiresSoundly; decide⟩
  have hreach := StepSystem.reachable_of_run .start hrun
  refine ⟨st, lock, hreach, hl, hpromised, ?_⟩
  exact ((ttl_promise_iff [1] Store.empty).2.1 st lock hreach hl).mpr (hpromised ▸ hsound)

theorem ttl_wraps_reachable :
    ∃ st lock, (system [1] Store.empty).Reachable st ∧ st.lock [1] = some lock ∧
      (checkTxnStatusWithCleanup st.store [1] lock.startTS lock.startTS true).1.isRolledBack =
        true ∧
      (physical lock.startTS).toNat <
        (physical lock.startTS).toNat + st.promised lock.startTS := by
  obtain ⟨st, lock, hrun, hl, hrolled, hlt⟩ : ∃ st lock,
      (system [1] Store.empty).runFrom (system [1] Store.empty).start
        [.prewrite { startTS := 262144000, primary := [1], lockTTL := 3000 } .put (some [7]),
          .heartBeat 262144000 0xFFFFFFFFFFFFFFFF] = some st ∧
      st.lock [1] = some lock ∧
      (checkTxnStatusWithCleanup st.store [1] lock.startTS lock.startTS true).1.isRolledBack =
        true ∧
      (physical lock.startTS).toNat <
        (physical lock.startTS).toNat + st.promised lock.startTS :=
    ⟨_, _, rfl, rfl, rfl, by decide⟩
  exact ⟨st, lock, StepSystem.reachable_of_run .start hrun, hl, hrolled, hlt⟩

end LockTtl
