/-
First committer wins: conflict checks and lost updates.

A run is a sequence of the storage's write paths, with any arguments.  `window` is the timestamp
up to which a transaction has seen the others: its start timestamp, or the largest `ForUpdateTS`
it has written a pessimistic lock with.  `noLostUpdate_of_checksReach` has the runs in which no
update is lost, `lostUpdate_reachable` a run in which one is.
-/
import Gookv.StepSystem
import Gookv.Pessimistic

open Txntypes Mvcc Txn

namespace WriteConflict

open Option

structure Clock where
  started : TimeStamp → Bool
  commitTS : TimeStamp → TimeStamp
  lt_commitTS : ∀ t, started t → t < commitTS t
  commitTS_inj : ∀ t t', started t → started t' → commitTS t = commitTS t' → t = t'
  commitTS_ne : ∀ t t', started t → started t' → commitTS t ≠ t'

structure State where
  store : Store
  window : TimeStamp → TimeStamp

inductive Command
  | prewrite (props : PrewriteProps) (mutation : Mutation)
  | prewriteAsyncCommit (props : AsyncCommitPrewriteProps) (mutation : Mutation)
  | prewriteAndCommit1PC (props : OnePCProps) (mutations : List Mutation)
  | acquirePessimisticLock (props : PessimisticLockProps) (key : Key)
  | prewritePessimistic (props : PessimisticPrewriteProps) (mutation : Mutation)
  | commit (key : Key) (startTS : TimeStamp)
  | rollback (key : Key) (startTS : TimeStamp)
  | pessimisticRollback (keys : List Key) (startTS forUpdateTS : TimeStamp)

def Command.startTS : Command → TimeStamp
  | .prewrite props _ => props.startTS
  | .prewriteAsyncCommit props _ => props.startTS
  | .prewriteAndCommit1PC props _ => props.startTS
  | .acquirePessimisticLock props _ => props.startTS
  | .prewritePessimistic props _ => props.startTS
  | .commit _ startTS => startTS
  | .rollback _ startTS => startTS
  | .pessimisticRollback _ startTS _ => startTS

def State.write (s : State) (result : Except TxnError (List Modify)) : State :=
  match result with
  | .ok modifies => { s with store := applyModifies s.store modifies }
  | .error _ => s

def State.raiseWindow (s : State) (startTS forUpdateTS : TimeStamp) : State :=
  { s with window := Function.update s.window startTS (max (s.window startTS) forUpdateTS) }

def step (clock : Clock) (s : State) (cmd : Command) : Option State :=
  if clock.started cmd.startTS then
    match cmd with
    | .prewrite props m => some (s.write (prewrite s.store props m))
    | .prewriteAsyncCommit props m => some (s.write (prewriteAsyncCommit s.store props m))
    | .prewriteAndCommit1PC props ms =>
      if props.commitTS = clock.commitTS props.startTS then
        some (s.write (.ok (prewriteAndCommit1PC s.store props ms).2))
      else none
    | .acquirePessimisticLock props key =>
      match acquirePessimisticLock s.store props key with
      | .ok [] => some s
      | .ok modifies => some ((s.raiseWindow props.startTS props.forUpdateTS).write (.ok modifies))
      | .error _ => some s
    | .prewritePessimistic props m => some (s.write (prewritePessimistic s.store props m))
    | .commit key startTS => some (s.write (commit s.store key startTS (clock.commitTS startTS)))
    | .rollback key startTS => some (s.write (rollback s.store key startTS))
    | .pessimisticRollback keys startTS forUpdateTS =>
      some (s.write (.ok (pessimisticRollback s.store keys startTS forUpdateTS)))
  else none

def system (clock : Clock) : StepSystem State Command where
  start := { store := Store.empty, window := fun t => t }
  step := step clock

/-- Two transactions wrote the key, each without having seen the other's record. -/
def LostUpdate (s : State) : Prop :=
  ∃ k, ∃ q₁ ∈ (s.store k).writes.entries, ∃ q₂ ∈ (s.store k).writes.entries,
    q₁.2.isDataChanged ∧ q₂.2.isDataChanged ∧ q₁.2.startTS ≠ q₂.2.startTS ∧
    s.window q₁.2.startTS < q₂.1 ∧ s.window q₂.2.startTS < q₁.1

/-- The conflict check of the command, if it makes one, reaches the newest data record that is too
new for it. -/
def ChecksReach (s : State) : Command → Prop
  | .prewrite props m =>
    (s.store m.key).lock = none → InReach conflictBound props.startTS (s.store m.key)
  | .prewriteAsyncCommit props m =>
    (s.store m.key).lock = none → InReach conflictBound props.startTS (s.store m.key)
  | .prewriteAndCommit1PC props ms =>
    (∀ m ∈ ms, onePCError s.store props m = none) →
      ∀ m ∈ ms, InReach 1 props.startTS (s.store m.key)
  | .acquirePessimisticLock props key =>
    (s.store key).lock = none → InReach 1 props.forUpdateTS (s.store key)
  | .prewritePessimistic props m =>
    (s.store m.key).lock = none → InReach 1 props.startTS (s.store m.key)
  | .commit _ _ | .rollback _ _ | .pessimisticRollback _ _ _ => True

instance (s : State) : (cmd : Command) → Decidable (ChecksReach s cmd)
  | .prewrite _ _ => inferInstanceAs (Decidable (_ → _))
  | .prewriteAsyncCommit _ _ => inferInstanceAs (Decidable (_ → _))
  | .prewriteAndCommit1PC _ _ => inferInstanceAs (Decidable (_ → _))
  | .acquirePessimisticLock _ _ => inferInstanceAs (Decidable (_ → _))
  | .prewritePessimistic _ _ => inferInstanceAs (Decidable (_ → _))
  | .commit _ _ | .rollback _ _ | .pessimisticRollback _ _ _ => inferInstanceAs (Decidable True)

/-! ### The invariant -/

def Clear (window : TimeStamp → TimeStamp) (r : Row) (t : TimeStamp) : Prop :=
  ∀ q ∈ r.writes.entries, q.2.isDataChanged → q.2.startTS ≠ t → q.1 ≤ window t

structure RowInv (window : TimeStamp → TimeStamp) (r : Row) : Prop where
  ordered : ∀ q₁ ∈ r.writes.entries, ∀ q₂ ∈ r.writes.entries,
    q₁.2.isDataChanged → q₂.2.isDataChanged → q₁.2.startTS ≠ q₂.2.startTS →
    q₂.1 ≤ window q₁.2.startTS ∨ q₁.1 ≤ window q₂.2.startTS
  locked : ∀ lock, r.lock = some lock → Clear window r lock.startTS

structure Inv (s : State) : Prop where
  le_window : ∀ t, t ≤ s.window t
  rows : ∀ k, RowInv s.window (s.store k)

variable {m : Mutation} {r r' : Row} {s : State} {w w' : TimeStamp → TimeStamp}

theorem Clear.mono {t : TimeStamp} (hw : ∀ t, w t ≤ w' t) (h : Clear w r t) : Clear w' r t :=
  fun q hq hd hne => (h q hq hd hne).trans (hw t)

theorem RowInv.change (t : TimeStamp) (hw : ∀ t, w t ≤ w' t) (h : RowInv w r)
    (hlock : ∀ lock', r'.lock = some lock' →
      (∃ lock, r.lock = some lock ∧ lock.startTS = lock'.startTS) ∨ Clear w' r lock'.startTS)
    (hnew : ∀ q ∈ r'.writes.entries, q.2.isDataChanged → q ∈ r.writes.entries ∨
      q.2.startTS = t ∧ Clear w' r t ∧ ∀ lock', r'.lock = some lock' → lock'.startTS = t) :
    RowInv w' r' := by
  constructor
  · intro q₁ h₁ q₂ h₂ hd₁ hd₂ hne
    rcases hnew q₁ h₁ hd₁ with ho₁ | ⟨ht₁, hc, -⟩
    · rcases hnew q₂ h₂ hd₂ with ho₂ | ⟨ht₂, hc, -⟩
      · exact (h.ordered q₁ ho₁ q₂ ho₂ hd₁ hd₂ hne).imp (fun hle => hle.trans (hw _))
          fun hle => hle.trans (hw _)
      · exact .inr (ht₂ ▸ hc q₁ ho₁ hd₁ (ht₂ ▸ hne))
    · rcases hnew q₂ h₂ hd₂ with ho₂ | ⟨ht₂, -, -⟩
      · exact .inl (ht₁ ▸ hc q₂ ho₂ hd₂ (ht₁ ▸ hne.symm))
      · exact absurd (ht₁.trans ht₂.symm) hne
  · intro lock' hl' q hq hd hne
    rcases hnew q hq hd with ho | ⟨ht, -, hl⟩
    · rcases hlock lock' hl' with ⟨lock, hl, heq⟩ | hc
      · rw [← heq] at hne ⊢
        exact (h.locked lock hl).mono hw q ho hd hne
      · exact hc q ho hd hne
    · exact absurd (ht.trans (hl lock' hl').symm) hne

theorem RowInv.relock {lock : Lock}
    (hw : ∀ t, w t ≤ w' t) (h : RowInv w r) (hl : r.lock = some lock)
    (hl' : ∀ lock', r'.lock = some lock' → lock'.startTS = lock.startTS)
    (hwr : r'.writes = r.writes) : RowInv w' r' := by
  refine h.change lock.startTS hw (fun lock' h' => .inl ⟨lock, hl, (hl' lock' h').symm⟩) ?_
  intro q hq _
  exact .inl (hwr ▸ hq)

theorem RowInv.lock {lock' : Lock}
    (hw : ∀ t, w t ≤ w' t) (h : RowInv w r) (hl' : r'.lock = some lock')
    (hc : ∀ q ∈ r.writes.entries, q.2.isDataChanged → q.1 ≤ w' lock'.startTS)
    (hwr : r'.writes = r.writes) : RowInv w' r' := by
  refine h.change lock'.startTS hw (fun lock h' => .inr ?_) ?_
  · obtain rfl := some.inj (hl'.symm.trans h')
    exact fun q hq hd _ => hc q hq hd
  · intro q hq _
    exact .inl (hwr ▸ hq)

theorem RowInv.mono (hw : ∀ t, w t ≤ w' t) (h : RowInv w r) : RowInv w' r :=
  h.change 0 hw (fun lock' hl => .inl ⟨lock', hl, rfl⟩) fun _ hq _ => .inl hq

theorem RowInv.unlock (h : RowInv w r)
    (hl' : r'.lock = none) (hwr : r'.writes = r.writes) : RowInv w r' :=
  h.change 0 (fun _ => le_rfl) (by simp [hl']) fun _ hq _ => .inl (hwr ▸ hq)

theorem RowInv.committed {lock : Lock} (h : RowInv w r) (hl : r.lock = some lock) (c : TimeStamp) :
    RowInv w (committed r lock c) := by
  refine h.change lock.startTS (fun _ => le_rfl) (by simp) fun q hq _ => ?_
  rw [committed_writes, Versions.mem_put] at hq
  rcases hq with rfl | ⟨_, hq⟩
  · exact .inr ⟨rfl, h.locked lock hl, by simp⟩
  · exact .inl hq

theorem RowInv.rolledBack (h : RowInv w r) (t : TimeStamp) : RowInv w (rolledBack r t) := by
  refine h.change t (fun _ => le_rfl) (fun lock' hl' => ?_) fun q hq hd => ?_
  · rw [rolledBack_lock] at hl'
    exact .inl ⟨lock', (filter_eq_some_iff.mp hl').1, rfl⟩
  · rw [rolledBack_writes, Versions.mem_put] at hq
    rcases hq with rfl | ⟨_, hq⟩
    · exact absurd hd (by simp [rollbackWrite, Write.isDataChanged])
    · exact .inl hq

variable {k : Key} {ms : List Modify} {props : OnePCProps}

theorem onePC_apply {x : Modify} (hx : x ∈ props.modifies m) (r : Row) :
    (r.apply x).lock = r.lock ∧ ∀ q ∈ (r.apply x).writes.entries,
      q ∈ r.writes.entries ∨ q.2.startTS = props.startTS := by
  rcases List.mem_append.mp hx with hv | hw
  · unfold Mutation.putLargeValue at hv
    split at hv
    · split at hv
      · obtain rfl := List.mem_singleton.mp hv
        exact ⟨rfl, fun q hq => .inl hq⟩
      · cases hv
    · cases hv
  · obtain rfl := List.mem_singleton.mp hw
    refine ⟨rfl, fun q hq => ?_⟩
    rcases Versions.mem_put.mp hq with rfl | ⟨_, hq⟩
    · exact .inr rfl
    · exact .inl hq

theorem onePC_row (s : Store) (props : OnePCProps) (ms : List Mutation) (k : Key) :
    (applyModifies s (ms.flatMap props.modifies) k).lock = (s k).lock ∧
      ∀ q ∈ (applyModifies s (ms.flatMap props.modifies) k).writes.entries,
        q ∈ (s k).writes.entries ∨ q.2.startTS = props.startTS ∧ ∃ m ∈ ms, m.key = k := by
  refine applyModifies_induction (P := fun r => r.lock = (s k).lock ∧
    ∀ q ∈ r.writes.entries, q ∈ (s k).writes.entries ∨
      q.2.startTS = props.startTS ∧ ∃ m ∈ ms, m.key = k) ⟨rfl, fun q hq => .inl hq⟩ ?_
  rintro x hx hk r ⟨hrl, hrw⟩
  obtain ⟨m, hm, hxm⟩ := List.mem_flatMap.mp hx
  obtain ⟨hl, hw⟩ := onePC_apply hxm r
  refine ⟨hl.trans hrl, fun q hq => ?_⟩
  rcases hw q hq with hq | hq
  · exact hrw q hq
  · exact .inr ⟨hq, m, hm, (OnePCProps.modifies_key hxm).symm.trans hk⟩

/-! ### Every command keeps the invariant -/

theorem Inv.update (h : Inv s)
    (ht : Turns ms k (s.store k) r') (hr : RowInv s.window r') : Inv (s.write (.ok ms)) := by
  refine ⟨h.le_window, fun k' => ?_⟩
  change RowInv s.window (applyModifies s.store ms k')
  rw [ht.applyModifies_eq]
  by_cases hk : k' = k
  · subst hk
    rwa [Function.update_self]
  · rw [Function.update_of_ne hk]
    exact h.rows k'

theorem Inv.prewrite (h : Inv s) {props : PrewriteProps}
    (hreach : ChecksReach s (.prewrite props m)) : Inv (s.write (prewrite s.store props m)) := by
  cases hp : Txn.prewrite s.store props m with
  | error e => exact h
  | ok ms =>
    rcases prewrite_ok hp with ⟨_, _, _, rfl⟩ | ⟨hl, hc, ht⟩
    · exact h
    · refine h.update ht ((h.rows m.key).lock (fun _ => le_rfl) (prewritten_lock _ _ _) ?_
        (prewritten_writes _ _ _))
      intro q hq hd
      exact (le_of_conflictLoop_eq_false hc (hreach hl) hq hd).trans (h.le_window _)

theorem Inv.prewriteAsyncCommit (h : Inv s) {props : AsyncCommitPrewriteProps}
    (hreach : ChecksReach s (.prewriteAsyncCommit props m)) :
    Inv (s.write (prewriteAsyncCommit s.store props m)) := by
  cases hp : Txn.prewriteAsyncCommit s.store props m with
  | error e => exact h
  | ok ms =>
    rcases prewriteAsyncCommit_ok hp with ⟨_, _, _, rfl⟩ | ⟨hl, hc, ht⟩
    · exact h
    · refine h.update ht ((h.rows m.key).lock (fun _ => le_rfl) (prewritten_lock _ _ _) ?_
        (prewritten_writes _ _ _))
      intro q hq hd
      rw [Lock.reload_startTS, asyncLock_startTS]
      exact (le_of_conflictLoop_eq_false hc (hreach hl) hq hd).trans (h.le_window _)

theorem Inv.prewriteAndCommit1PC (h : Inv s)
    {ms : List Mutation} (hreach : ChecksReach s (.prewriteAndCommit1PC props ms)) :
    Inv (s.write (.ok (prewriteAndCommit1PC s.store props ms).2)) := by
  rcases prewriteAndCommit1PC_cases s.store props ms with ⟨_, hms⟩ | ⟨_, hok, hms⟩
  · rw [hms]
    exact h
  · rw [hms]
    refine ⟨h.le_window, fun k => ?_⟩
    obtain ⟨hlock, hmem⟩ := onePC_row s.store props ms k
    refine (h.rows k).change props.startTS (fun _ => le_rfl) (fun lock' hl' => ?_) ?_
    · exact .inl ⟨lock', hlock.symm.trans hl', rfl⟩
    · intro q hq _
      refine (hmem q hq).imp_right fun ⟨hqt, m, hm, hmk⟩ => ⟨hqt, ?_, ?_⟩
      · subst hmk
        obtain ⟨_, hc⟩ := onePCError_eq_none (hok m hm)
        intro q' hq' hd' _
        exact (le_of_conflictLoop_eq_false hc (hreach hok m hm) hq' hd').trans (h.le_window _)
      · intro lock' hl'
        subst hmk
        exact (onePCError_eq_none (hok m hm)).1 lock' (hlock.symm.trans hl')

theorem le_raiseWindow (s : State) (t fu t' : TimeStamp) :
    s.window t' ≤ (s.raiseWindow t fu).window t' := by
  by_cases ht : t' = t
  · subst ht
    simp [State.raiseWindow]
  · simp [State.raiseWindow, Function.update_of_ne ht]

theorem Inv.raiseWindow (h : Inv s) (t fu : TimeStamp) : Inv (s.raiseWindow t fu) :=
  ⟨fun t' => (h.le_window t').trans (le_raiseWindow s t fu t'),
    fun k => (h.rows k).mono (le_raiseWindow s t fu)⟩

theorem Inv.acquirePessimisticLock (h : Inv s) {props : PessimisticLockProps}
    (hp : acquirePessimisticLock s.store props k = .ok ms)
    (hreach : ChecksReach s (.acquirePessimisticLock props k)) :
    Inv ((s.raiseWindow props.startTS props.forUpdateTS).write (.ok ms)) := by
  have h' := h.raiseWindow props.startTS props.forUpdateTS
  rcases acquirePessimisticLock_ok hp with
    ⟨lock, r', hl, hlt, ht, hw, lock', hl', hlt'⟩ | ⟨hl, hc, ht⟩
  · refine h'.update ht ((h'.rows k).relock (fun _ => le_rfl) hl (fun l hl₁ => ?_) hw)
    obtain rfl := some.inj (hl'.symm.trans hl₁)
    exact hlt'.trans hlt.symm
  · refine h'.update ht ((h'.rows k).lock (fun _ => le_rfl) rfl (fun q hq hd => ?_) rfl)
    refine (le_of_conflictLoop_eq_false hc (hreach hl) hq hd).trans ?_
    simp [State.raiseWindow, PessimisticLockProps.lock]

theorem Inv.prewritePessimistic (h : Inv s) {props : PessimisticPrewriteProps}
    (hreach : ChecksReach s (.prewritePessimistic props m)) :
    Inv (s.write (prewritePessimistic s.store props m)) := by
  cases hp : Txn.prewritePessimistic s.store props m with
  | error e => exact h
  | ok ms =>
    rcases prewritePessimistic_ok hp with
      ⟨lock, r', hl, hlt, ht, hw, lock', hl', hlt'⟩ | ⟨hl, hc, ht⟩
    · refine h.update ht ((h.rows m.key).relock (fun _ => le_rfl) hl (fun l hl₁ => ?_) hw)
      obtain rfl := some.inj (hl'.symm.trans hl₁)
      exact hlt'.trans hlt.symm
    · refine h.update ht ((h.rows m.key).lock (fun _ => le_rfl) (prewritten_lock _ _ _) ?_
        (prewritten_writes _ _ _))
      intro q hq hd
      exact (le_of_conflictLoop_eq_false hc (hreach hl) hq hd).trans (h.le_window _)

theorem Inv.commit (h : Inv s) (k : Key) (t c : TimeStamp) :
    Inv (s.write (commit s.store k t c)) := by
  cases hp : Txn.commit s.store k t c with
  | error e => exact h
  | ok ms =>
    obtain ⟨lock, hl, _, _, ⟨_, ht⟩ | ⟨_, ht⟩⟩ := commit_ok hp
    · exact h.update ht ((h.rows k).unlock rfl rfl)
    · exact h.update ht ((h.rows k).committed hl c)

theorem Inv.rollback (h : Inv s) (k : Key) (t : TimeStamp) :
    Inv (s.write (rollback s.store k t)) := by
  cases hp : Txn.rollback s.store k t with
  | error e => exact h
  | ok ms =>
    rcases rollback_ok hp with ⟨_, _, _, _, rfl⟩ | ⟨_, ht⟩
    · exact h
    · exact h.update ht ((h.rows k).rolledBack t)

theorem Inv.pessimisticRollback (h : Inv s) (keys : List Key) (t fu : TimeStamp) :
    Inv (s.write (.ok (pessimisticRollback s.store keys t fu))) := by
  refine ⟨h.le_window, fun k => ?_⟩
  refine applyModifies_induction (P := RowInv s.window) (h.rows k) fun x hx _ r hr => ?_
  obtain ⟨k', rfl, _⟩ := pessimisticRollback_modifies hx
  exact hr.unlock rfl rfl

theorem Inv.step {clock : Clock} {s' : State} {cmd : Command} (h : Inv s)
    (hreach : ChecksReach s cmd) (hs : step clock s cmd = some s') : Inv s' := by
  unfold WriteConflict.step at hs
  split at hs
  · cases cmd with
    | prewrite props m => exact some.inj hs ▸ h.prewrite hreach
    | prewriteAsyncCommit props m => exact some.inj hs ▸ h.prewriteAsyncCommit hreach
    | prewriteAndCommit1PC props ms =>
      dsimp only at hs
      split at hs
      · exact some.inj hs ▸ h.prewriteAndCommit1PC hreach
      · cases hs
    | acquirePessimisticLock props k =>
      dsimp only at hs
      split at hs
      · exact some.inj hs ▸ h
      · rename_i hp
        exact some.inj hs ▸ h.acquirePessimisticLock hp hreach
      · exact some.inj hs ▸ h
    | prewritePessimistic props m => exact some.inj hs ▸ h.prewritePessimistic hreach
    | commit k t => exact some.inj hs ▸ h.commit k t _
    | rollback k t => exact some.inj hs ▸ h.rollback k t
    | pessimisticRollback keys t fu =>
      exact some.inj hs ▸ h.pessimisticRollback keys t fu
  · cases hs

theorem inv_start (clock : Clock) : Inv (system clock).start :=
  ⟨fun _ => le_rfl, fun _ => ⟨by simp [system, Store.empty], by simp [system, Store.empty]⟩⟩

theorem Inv.not_lostUpdate (h : Inv s) : ¬LostUpdate s := by
  rintro ⟨k, q₁, h₁, q₂, h₂, hd₁, hd₂, hne, hlt₁, hlt₂⟩
  rcases (h.rows k).ordered q₁ h₁ q₂ h₂ hd₁ hd₂ hne with hle | hle
  · exact absurd hlt₁ (not_lt.mpr hle)
  · exact absurd hlt₂ (not_lt.mpr hle)

/-- **First committer wins**: in every run whose conflict checks all reach the
newest data record of their key, no update is lost. -/
theorem noLostUpdate_of_checksReach (clock : Clock) {s : State}
    (h : (system clock).ReachableWhen ChecksReach s) : ¬LostUpdate s :=
  (h.invariant (inv_start clock) fun _ _ _ hi hreach hs => hi.step hreach hs).not_lostUpdate

def exampleClock : Clock where
  started t := t = 5 ∨ t = 10 ∨ t = 20
  commitTS t := if t = 5 then 15 else if t = 10 then 25 else 30
  lt_commitTS t ht := by
    simp only [decide_eq_true_eq] at ht
    rcases ht with rfl | rfl | rfl <;> decide
  commitTS_inj t t' ht ht' := by
    simp only [decide_eq_true_eq] at ht ht'
    rcases ht with rfl | rfl | rfl <;> rcases ht' with rfl | rfl | rfl <;> decide
  commitTS_ne t t' ht ht' := by
    simp only [decide_eq_true_eq] at ht ht'
    rcases ht with rfl | rfl | rfl <;> rcases ht' with rfl | rfl | rfl <;> decide

/-- `5` commits a Put at `15`; `10` is too late; `20` locks the key and commits at `30`. -/
def orderedRun : List Command :=
  [.prewrite { startTS := 5, primary := [1], lockTTL := 3000 }
      { op := .put, key := [1], value := some [7] },
   .commit [1] 5,
   .prewriteAndCommit1PC { startTS := 10, commitTS := 25, primary := [1], lockTTL := 3000 }
      [{ op := .put, key := [1], value := some [8] }],
   .acquirePessimisticLock
      { startTS := 20, forUpdateTS := 22, primary := [1], lockTTL := 3000 } [1],
   .prewritePessimistic
      { startTS := 20, primary := [1], lockTTL := 3000, forUpdateTS := 22, isPessimistic := true }
      { op := .delete, key := [1] },
   .commit [1] 20]

theorem noLostUpdate_orderedRun : ∃ s, (system exampleClock).ReachableWhen ChecksReach s ∧
      (s.store [1]).writes.entries =
        [(30, ⟨.delete, 20, none, {}⟩), (15, ⟨.put, 5, some [7], {}⟩)] ∧ ¬LostUpdate s := by
  have hrun : ∃ s, (system exampleClock).runWhen ChecksReach (system exampleClock).start
      orderedRun = some s ∧ (s.store [1]).writes.entries =
        [(30, ⟨.delete, 20, none, {}⟩), (15, ⟨.put, 5, some [7], {}⟩)] :=
    ⟨_, rfl, rfl⟩
  obtain ⟨s, hs, hentries⟩ := hrun
  have hreach := StepSystem.reachableWhen_of_run .start hs
  exact ⟨s, hreach, hentries, noLostUpdate_of_checksReach exampleClock hreach⟩

/-- `5` commits a Put at `15`; `20` is rolled back; then `10` commits in one phase at `25`. -/
def hiddenRun : List Command :=
  [.prewrite { startTS := 5, primary := [1], lockTTL := 3000 }
      { op := .put, key := [1], value := some [7] },
   .commit [1] 5,
   .rollback [1] 20,
   .prewriteAndCommit1PC { startTS := 10, commitTS := 25, primary := [1], lockTTL := 3000 }
      [{ op := .put, key := [1], value := some [8] }]]

theorem lostUpdate_reachable : ∃ s, (system exampleClock).Reachable s ∧ LostUpdate s := by
  have hrun : ∃ s, (system exampleClock).runFrom (system exampleClock).start hiddenRun = some s ∧
      s.window 5 = 5 ∧ s.window 10 = 10 ∧
      (15, ⟨.put, 5, some [7], {}⟩) ∈ (s.store [1]).writes.entries ∧
      (25, ⟨.put, 10, some [8], {}⟩) ∈ (s.store [1]).writes.entries :=
    ⟨_, rfl, rfl, rfl, by decide, by decide⟩
  obtain ⟨s, hs, hw₁, hw₂, h₁, h₂⟩ := hrun
  refine ⟨s, StepSystem.reachable_of_run .start hs, [1], _, h₁, _, h₂, by decide, by decide,
    by decide, ?_, ?_⟩
  · rw [hw₁]
    decide
  · rw [hw₂]
    decide

end WriteConflict
