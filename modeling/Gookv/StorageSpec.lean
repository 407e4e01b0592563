/-
What the storage commands do to the statuses of the transactions.

`Rep s st` lifts `Represents` to the whole store: `st k t` is the status of `t` on the key `k`.
-/
import Gookv.KeyStatus
import Gookv.Storage

open Txntypes Mvcc Txn

namespace Storage

open List

open Function

abbrev Statuses := Key → TimeStamp → KeyStatus

def Rep (s : Store) (st : Statuses) : Prop := ∀ k, Represents (s k) (st k)

def setStatus (st : Statuses) (keys : List Key) (t : TimeStamp) (v : KeyStatus) : Statuses :=
  fun k => if k ∈ keys then update (st k) t v else st k

section

variable {st : Statuses} {keys : List Key} {t t' : TimeStamp} {v : KeyStatus} {k : Key}

theorem setStatus_of_mem (hk : k ∈ keys) :
    setStatus st keys t v k = update (st k) t v := if_pos hk

theorem setStatus_of_notMem (hk : k ∉ keys) : setStatus st keys t v k = st k := if_neg hk

theorem setStatus_self (hk : k ∈ keys) : setStatus st keys t v k t = v := by
  rw [setStatus_of_mem hk, update_self]

theorem setStatus_of_ne (ht : t' ≠ t) : setStatus st keys t v k t' = st k t' := by
  by_cases hk : k ∈ keys
  · rw [setStatus_of_mem hk, update_of_ne ht]
  · rw [setStatus_of_notMem hk]

theorem setStatus_cases (st : Statuses) (keys : List Key) (t : TimeStamp) (v : KeyStatus)
    (k : Key) (t' : TimeStamp) : (k ∈ keys ∧ t' = t ∧ setStatus st keys t v k t' = v) ∨
      setStatus st keys t v k t' = st k t' := by
  by_cases hk : k ∈ keys
  · by_cases ht : t' = t
    · subst ht
      exact .inl ⟨hk, rfl, setStatus_self hk⟩
    · exact .inr (setStatus_of_ne ht)
  · exact .inr (by rw [setStatus_of_notMem hk])

end

/-! ### Moves -/

/-- A command locks a row, commits its lock, rolls it back, or commits it in one phase. -/
inductive RowMove (σ : TimeStamp → KeyStatus) (t : TimeStamp) (r : Row) :
    Row → KeyStatus → Prop
  | lock (lock : Lock) (m : Mutation) : r.lock = none → σ t = .absent → lock.startTS = t →
      lock.lockType ≠ .pessimistic → RowMove σ t r (prewritten r lock m) .locked
  | commit (lock : Lock) (c : TimeStamp) : r.lock = some lock → lock.startTS = t →
      t < c → (∀ t', σ t' ≠ .committed c) → σ c ≠ .rolledBack →
      RowMove σ t r (committed r lock c) (.committed c)
  | rollback : σ t = .absent ∨ σ t = .locked → (∀ t', σ t' ≠ .committed t) →
      RowMove σ t r (rolledBack r t) .rolledBack
  | onePC (props : OnePCProps) (m : Mutation) : props.startTS = t → σ t = .absent →
      t < props.commitTS → (∀ t', σ t' ≠ .committed props.commitTS) →
      σ props.commitTS ≠ .rolledBack →
      RowMove σ t r (onePCCommitted r props m) (.committed props.commitTS)

theorem RowMove.represents {t : TimeStamp} {r r' : Row} {σ : TimeStamp → KeyStatus} {v : KeyStatus}
    (h : Represents r σ) (hm : RowMove σ t r r' v) :
    Represents r' (update σ t v) := by
  cases hm with
  | lock lock m hl ha ht hty =>
    subst ht
    exact h.prewritten m hl ha hty
  | commit lock c hl ht hlt hc hr =>
    subst ht
    exact h.committed hl hlt hc hr
  | rollback ht hc => exact h.rolledBack ht hc
  | onePC props m ht ha hlt hc hr =>
    subst ht
    have hw : (props.write m).reload.writeType ≠ .rollback := by
      simp only [Write.reload_writeType, OnePCProps.write]
      cases m.op <;> simp [mutationOpToWriteType]
    have hst : recordStatus (props.commitTS, (props.write m).reload) =
        .committed props.commitTS := if_neg hw
    rw [← hst]
    refine h.finish (w := (props.write m).reload) (.inl ha) (h.ne_of_mem hc hr) ?_
      (onePCCommitted_writes r props m) (.inr ⟨hw, hlt⟩)
    rw [onePCCommitted_lock]
    cases hl : r.lock with
    | none => rfl
    | some lock =>
      have hne : lock.startTS ≠ props.startTS := h.lock_eq_none_of_absent ha hl
      simp [Option.filter, OnePCProps.write, hne]

def Moved (s : Store) (st : Statuses) (t : TimeStamp) (s' : Store) (st' : Statuses) : Prop :=
  ∀ k, (s' k = s k ∧ st' k = st k) ∨
    ∃ v, RowMove (st k) t (s k) (s' k) v ∧ st' k = update (st k) t v

theorem Moved.refl (s : Store) (st : Statuses) (t : TimeStamp) : Moved s st t s st :=
  fun _ => .inl ⟨rfl, rfl⟩

variable {errs : List (Option TxnError)} {ms : List Mutation} {e : Option TxnError} {st' : Statuses}
  {s s' : Store} {st : Statuses} {t : TimeStamp} {k : Key}

theorem Moved.of_ne {t' : TimeStamp}
    (hm : Moved s st t s' st') (ht : t' ≠ t) (k : Key) : st' k t' = st k t' := by
  rcases hm k with ⟨-, hst⟩ | ⟨v, -, hst⟩
  · rw [hst]
  · rw [hst, update_of_ne ht]

theorem Rep.moved (h : Rep s st) (hm : Moved s st t s' st') : Rep s' st' := by
  intro k
  rcases hm k with ⟨hs, hst⟩ | ⟨v, hv, hst⟩
  · rw [hs, hst]
    exact h k
  · rw [hst]
    exact hv.represents (h k)

theorem Moved.status_cases (hm : Moved s st t s' st') (h : Rep s st) (k : Key) (t' : TimeStamp) :
    st' k t' = st k t' ∨
      (st k t' = .absent ∨ st k t' = .locked) ∧ st' k t' ≠ .absent := by
  rcases hm k with ⟨-, hst⟩ | ⟨v, hv, hst⟩
  · exact .inl (by rw [hst])
  · by_cases ht : t' = t
    · subst ht
      refine .inr ?_
      rw [hst, update_self]
      generalize s' k = r' at hv
      cases hv with
      | lock lock m _ ha => exact ⟨.inl ha, by simp⟩
      | commit lock c hl hlt => exact ⟨.inr (hlt ▸ ((h k).of_lock lock hl).1), by simp⟩
      | rollback hs => exact ⟨hs, by simp⟩
      | onePC props m _ ha => exact ⟨.inl ha, by simp⟩
    · exact .inl (by rw [hst, update_of_ne ht])

theorem Moved.batch {α : Type*}
    {f : α → List Modify} {key : α → Key} {as : List α} (hn : (as.map key).Nodup)
    (hturn : ∀ a ∈ as, ∃ r', Turns (f a) (key a) (s (key a)) r' ∧
      ((r' = s (key a) ∧ st' (key a) = st (key a)) ∨
        ∃ v, RowMove (st (key a)) t (s (key a)) r' v ∧
          st' (key a) = update (st (key a)) t v))
    (hother : ∀ k, k ∉ as.map key → st' k = st k) :
    Moved s st t (applyModifies s (as.flatMap f)) st' := by
  obtain ⟨hin, hout⟩ := applyModifies_flatMap s hn fun a ha =>
    (hturn a ha).elim fun _ hr => hr.1.1
  intro k
  by_cases hk : k ∈ as.map key
  · obtain ⟨a, ha, rfl⟩ := List.mem_map.mp hk
    obtain ⟨r', ht, hr'⟩ := hturn a ha
    rw [hin a ha, ht.2]
    exact hr'
  · exact .inl ⟨hout k hk, hother k hk⟩

theorem Moved.batch_keys {f : Key → List Modify} {keys : List Key} (hn : keys.Nodup)
    (hturn : ∀ k ∈ keys, ∃ r', Turns (f k) k (s k) r' ∧ ((r' = s k ∧ st' k = st k) ∨
      ∃ v, RowMove (st k) t (s k) r' v ∧ st' k = update (st k) t v))
    (hother : ∀ k, k ∉ keys → st' k = st k) :
    Moved s st t (applyModifies s (keys.flatMap f)) st' := by
  have hid : keys.map (fun k => k) = keys := map_id' keys
  exact Moved.batch (by rwa [hid]) hturn (by rwa [hid])

theorem runAll_ok {α : Type*} {action : α → Except TxnError (List Modify)} :
    ∀ {as : List α} {ms : List Modify}, runAll action as = .ok ms →
      (∀ a ∈ as, action a = .ok (modifiesOf (action a))) ∧
        ms = as.flatMap fun a => modifiesOf (action a)
  | [], ms, h => ⟨by simp, (Except.ok.inj h).symm⟩
  | a :: as, ms, h => by
    rw [runAll] at h
    cases ha : action a with
    | error e => simp [ha] at h
    | ok ms₁ =>
      cases hr : runAll action as with
      | error e => simp [ha, hr] at h
      | ok ms₂ =>
        simp only [ha, hr] at h
        obtain ⟨h1, h2⟩ := runAll_ok hr
        constructor
        · intro b hb
          rcases List.mem_cons.mp hb with rfl | hb
          · rw [ha]
            rfl
          · exact h1 b hb
        · rw [flatMap_cons, ha, ← h2]
          exact (Except.ok.inj h).symm

theorem runAll_error {α : Type*} {action : α → Except TxnError (List Modify)} {e : TxnError} :
    ∀ {as : List α}, runAll action as = .error e → ∃ a ∈ as, action a = .error e
  | [], h => by simp [runAll] at h
  | a :: as, h => by
    rw [runAll] at h
    cases ha : action a with
    | error e' =>
      simp only [ha, Except.error.injEq] at h
      exact ⟨a, by simp, by rw [ha, h]⟩
    | ok ms =>
      cases hr : runAll action as with
      | error e' =>
        simp only [ha, hr, Except.error.injEq] at h
        obtain ⟨b, hb, hbe⟩ := runAll_error hr
        exact ⟨b, mem_cons_of_mem _ hb, by rw [hbe, h]⟩
      | ok ms' => simp [ha, hr] at h

theorem runAll_of_ok {α : Type*} {action : α → Except TxnError (List Modify)}
    {f : α → List Modify} :
    ∀ {as : List α}, (∀ a ∈ as, action a = .ok (f a)) → runAll action as = .ok (as.flatMap f)
  | [], _ => rfl
  | a :: as, h => by
    rw [runAll, h a (by simp), runAll_of_ok fun b hb => h b (mem_cons_of_mem _ hb),
      flatMap_cons]

theorem runAll_map {α β : Type*} (action : β → Except TxnError (List Modify)) (g : α → β) :
    ∀ as : List α, runAll action (as.map g) = runAll (fun a => action (g a)) as
  | [] => rfl
  | a :: as => by rw [map_cons, runAll, runAll, runAll_map action g as]

theorem finish_eq {r : Except TxnError (List Modify)} (h : finish s r = (e, s')) :
    (e ≠ none ∧ s' = s) ∨ (e = none ∧ ∃ ms, r = .ok ms ∧ s' = applyModifies s ms) := by
  cases r with
  | error err =>
    obtain ⟨rfl, rfl⟩ := Prod.mk.inj h
    exact .inl ⟨by simp, rfl⟩
  | ok ms =>
    obtain ⟨rfl, rfl⟩ := Prod.mk.inj h
    exact .inr ⟨rfl, ms, rfl, rfl⟩

theorem runEach_eq {α : Type*} {action : α → Except TxnError (List Modify)}
    {as : List α} (h : runEach s action as = (errs, s')) :
    (errs.any Option.isSome = true ∧ s' = s) ∨ (errs.any Option.isSome = false ∧
      (∀ a ∈ as, action a = .ok (modifiesOf (action a))) ∧
      s' = applyModifies s (as.flatMap fun a => modifiesOf (action a))) := by
  unfold runEach at h
  dsimp only at h
  split at h
  · rename_i herr
    obtain ⟨rfl, rfl⟩ := Prod.mk.inj h
    exact .inl ⟨herr, rfl⟩
  · rename_i herr
    obtain ⟨rfl, rfl⟩ := Prod.mk.inj h
    refine .inr ⟨by simpa using herr, fun a ha => ?_, rfl⟩
    cases hact : action a with
    | ok ms => rfl
    | error e =>
      refine absurd ?_ herr
      rw [any_eq_true]
      exact ⟨some e, List.mem_map.mpr ⟨a, ha, by rw [hact]; rfl⟩, rfl⟩

def passesChecks (s : Store) (t : TimeStamp) (k : Key) : Bool :=
  match (s k).lock with
  | some lock => lock.startTS = t
  | none => !conflictLoop s k t conflictBound tsMax

def NoLateLock (s : Store) (t : TimeStamp) (keys : List Key) : Prop :=
  (∀ k ∈ keys, passesChecks s t k) → ∀ k ∈ keys, (s k).lock = none →
    ∀ q ∈ (s k).writes.entries, q.2.startTS ≠ t

instance (s : Store) (t : TimeStamp) (keys : List Key) : Decidable (NoLateLock s t keys) :=
  inferInstanceAs (Decidable (_ → _))

theorem absent_of_unlocked (h : Rep s st) (hl : (s k).lock = none)
    (hrec : ∀ q ∈ (s k).writes.entries, q.2.startTS ≠ t) : st k t = .absent := by
  refine ((h k).absent_or_locked hrec).resolve_right fun hs => ?_
  obtain ⟨lock, hl', -⟩ := (h k).lock_of t hs
  exact absurd (hl.symm.trans hl') (by simp)

theorem locking_spec {action : Mutation → Except TxnError (List Modify)} {newLock : Mutation → Lock}
    (h : Rep s st) (hn : (ms.map (·.key)).Nodup) (hlate : NoLateLock s t (ms.map (·.key)))
    (hnewt : ∀ m, (newLock m).startTS = t)
    (hnewty : ∀ m, (newLock m).lockType = mutationOpToLockType m.op)
    (hok : ∀ m xs, action m = .ok xs →
      (∃ lock, (s m.key).lock = some lock ∧ lock.startTS = t ∧ xs = []) ∨
      ((s m.key).lock = none ∧ conflictLoop s m.key t conflictBound tsMax = false ∧
        Turns xs m.key (s m.key) (prewritten (s m.key) (newLock m) m)))
    (hrun : runEach s action ms = (errs, s')) : (errs.any Option.isSome = true ∧ s' = s) ∨
    (errs.any Option.isSome = false ∧
      (∀ m ∈ ms, st m.key t = .absent ∨ st m.key t = .locked) ∧
      Moved s st t s' (setStatus st (ms.map (·.key)) t .locked)) := by
  rcases runEach_eq hrun with herr | ⟨herr, hacts, rfl⟩
  · exact .inl herr
  · have hpass : ∀ k ∈ ms.map (·.key), passesChecks s t k := by
      intro k hk
      obtain ⟨m, hm, rfl⟩ := List.mem_map.mp hk
      rcases hok m _ (hacts m hm) with ⟨lock, hl, hlt, _⟩ | ⟨hl, hc, _⟩
      · simp [passesChecks, hl, hlt]
      · simp [passesChecks, hl, hc]
    have habs : ∀ m ∈ ms, (s m.key).lock = none → st m.key t = .absent := fun m hm hl =>
      absent_of_unlocked h hl (hlate hpass _ (mem_map_of_mem hm) hl)
    refine .inr ⟨herr, fun m hm => ?_, Moved.batch hn (fun m hm => ?_) fun k hk =>
      setStatus_of_notMem hk⟩
    · rcases hok m _ (hacts m hm) with ⟨lock, hl, rfl, _⟩ | ⟨hl, _⟩
      · exact .inr ((h m.key).of_lock lock hl).1
      · exact .inl (habs m hm hl)
    · have hset : setStatus st (ms.map (·.key)) t .locked m.key =
          update (st m.key) t .locked := setStatus_of_mem (mem_map_of_mem hm)
      rcases hok m _ (hacts m hm) with ⟨lock, hl, rfl, hnil⟩ | ⟨hl, _, hturn⟩
      · refine ⟨s m.key, hnil ▸ Turns.nil _ _, .inl ⟨rfl, ?_⟩⟩
        rw [hset, update_eq_self_iff]
        exact ((h m.key).of_lock lock hl).1.symm
      · refine ⟨_, hturn, .inr ⟨.locked, ?_, hset⟩⟩
        refine .lock (newLock m) m hl (habs m hm hl) (hnewt m) ?_
        rw [hnewty]
        cases m.op <;> simp [mutationOpToLockType]

variable {primary : Key} {c ts : TimeStamp} {ttl : UInt64}

theorem prewrite_spec (h : Rep s st)
    (hn : (ms.map (·.key)).Nodup) (hlate : NoLateLock s t (ms.map (·.key)))
    (hrun : prewrite s ms primary t ttl = (errs, s')) : (errs.any Option.isSome = true ∧ s' = s) ∨
    (errs.any Option.isSome = false ∧
      (∀ m ∈ ms, st m.key t = .absent ∨ st m.key t = .locked) ∧
      Moved s st t s' (setStatus st (ms.map (·.key)) t .locked)) :=
  locking_spec h hn hlate (fun _ => rfl) (fun _ => rfl) (fun _ _ => prewrite_ok) hrun

theorem prewriteAsyncCommit_spec {maxTS minTS : TimeStamp} {secondaries : List Key}
    (h : Rep s st) (hn : (ms.map (·.key)).Nodup) (hlate : NoLateLock s t (ms.map (·.key)))
    (hrun : prewriteAsyncCommit s ms primary t ttl secondaries maxTS = (errs, minTS, s')) :
    (errs.any Option.isSome = true ∧ s' = s) ∨ (errs.any Option.isSome = false ∧
      (∀ m ∈ ms, st m.key t = .absent ∨ st m.key t = .locked) ∧
      Moved s st t s' (setStatus st (ms.map (·.key)) t .locked)) := by
  obtain ⟨rfl, hs⟩ := Prod.mk.inj hrun
  obtain ⟨-, rfl⟩ := Prod.mk.inj hs
  exact locking_spec h hn hlate (fun _ => asyncLock_startTS _ _)
    (fun _ => asyncLock_lockType _ _) (fun _ _ => prewriteAsyncCommit_ok) rfl

def NoLateOnePC (s : Store) (props : OnePCProps) (ms : List Mutation) : Prop :=
  (∀ m ∈ ms, onePCError s props m = none) → ∀ m ∈ ms, ∀ q ∈ (s m.key).writes.entries,
    q.2.startTS ≠ props.startTS

instance (s : Store) (props : OnePCProps) (ms : List Mutation) :
    Decidable (NoLateOnePC s props ms) :=
  inferInstanceAs (Decidable (_ → _))

theorem prewrite1PC_cases (props : OnePCProps)
    (hrun : prewrite1PC s ms props.primary props.startTS props.commitTS props.lockTTL =
      (errs, ts, s')) : (errs.any Option.isSome = true ∧ s' = s) ∨
    (errs.any Option.isSome = false ∧ (∀ m ∈ ms, onePCError s props m = none) ∧
      s' = applyModifies s (ms.flatMap props.modifies)) := by
  unfold prewrite1PC at hrun
  dsimp only at hrun
  rcases prewriteAndCommit1PC_cases s props ms with ⟨herr, -⟩ | ⟨herr, hok, hms⟩
  · rw [if_pos herr] at hrun
    obtain ⟨rfl, hs⟩ := Prod.mk.inj hrun
    obtain ⟨-, rfl⟩ := Prod.mk.inj hs
    exact .inl ⟨herr, rfl⟩
  · rw [if_neg (by simp [herr])] at hrun
    obtain ⟨rfl, hs⟩ := Prod.mk.inj hrun
    obtain ⟨-, rfl⟩ := Prod.mk.inj hs
    exact .inr ⟨herr, hok, congrArg _ hms⟩

theorem prewrite1PC_spec (props : OnePCProps) (h : Rep s st)
    (hn : (ms.map (·.key)).Nodup) (hlate : NoLateOnePC s props ms)
    (hunlocked : ∀ k, st k props.startTS ≠ .locked) (hlt : props.startTS < props.commitTS)
    (hc : ∀ k t', st k t' = .committed props.commitTS → t' = props.startTS)
    (hr : ∀ k, st k props.commitTS ≠ .rolledBack)
    (hrun : prewrite1PC s ms props.primary props.startTS props.commitTS props.lockTTL =
      (errs, ts, s')) : (errs.any Option.isSome = true ∧ s' = s) ∨
    (errs.any Option.isSome = false ∧ (∀ m ∈ ms, onePCError s props m = none) ∧
      (∀ m ∈ ms, st m.key props.startTS = .absent) ∧
      Moved s st props.startTS s'
        (setStatus st (ms.map (·.key)) props.startTS (.committed props.commitTS))) := by
  rcases prewrite1PC_cases props hrun with herr | ⟨herr, hok, rfl⟩
  · exact .inl herr
  · -- A status other than absent would have left a lock or a record.
    have habs : ∀ m ∈ ms, st m.key props.startTS = .absent := fun m hm =>
      ((h m.key).absent_or_locked (hlate hok m hm)).resolve_right (hunlocked _)
    refine .inr ⟨herr, hok, habs, ?_⟩
    refine Moved.batch hn (fun m hm => ?_) fun k hk => setStatus_of_notMem hk
    refine ⟨_, ⟨fun x hx => OnePCProps.modifies_key hx, rfl⟩, .inr ⟨_, ?_,
      setStatus_of_mem (mem_map_of_mem hm)⟩⟩
    refine .onePC props m rfl (habs m hm) hlt (fun t' ht' => ?_) (hr _)
    rw [hc _ t' ht', habs m hm] at ht'
    cases ht'

/-! ### The finishing commands -/

section
variable {st : Statuses} (h : Rep s st)
include h

theorem commit_spec {keys : List Key} (hn : keys.Nodup) (hlt : t < c)
    (hc : ∀ k t', st k t' = .committed c → t' = t) (hr : ∀ k, st k c ≠ .rolledBack)
    (hrun : commit s keys t c = (e, s')) : (e ≠ none ∧ s' = s) ∨
    (e = none ∧ (∀ k ∈ keys, st k t = .locked) ∧
      Moved s st t s' (setStatus st keys t (.committed c))) := by
  rcases finish_eq hrun with herr | ⟨rfl, ms, hms, rfl⟩
  · exact .inl herr
  · obtain ⟨hacts, rfl⟩ := runAll_ok hms
    have hlocked : ∀ k ∈ keys, st k t = .locked := by
      intro k hk
      obtain ⟨lock, hl, rfl, _⟩ := commit_ok (hacts k hk)
      exact ((h k).of_lock lock hl).1
    refine .inr ⟨rfl, hlocked, Moved.batch_keys hn (fun k hk => ?_) fun k hk =>
      setStatus_of_notMem hk⟩
    obtain ⟨lock, hl, hlt', _, ⟨hp, _⟩ | ⟨_, hturn⟩⟩ := commit_ok (hacts k hk)
    · exact absurd hp ((h k).of_lock lock hl).2
    · refine ⟨_, hturn, .inr ⟨_, .commit lock c hl hlt' hlt ?_ (hr k), setStatus_of_mem hk⟩⟩
      intro t' ht'
      rw [hc k t' ht', hlocked k hk] at ht'
      cases ht'

theorem commit_refused {keys : List Key} (hk : k ∈ keys) (hst : st k t ≠ .locked)
    (hrun : commit s keys t c = (e, s')) : e ≠ none ∧ s' = s := by
  rcases finish_eq hrun with herr | ⟨-, ms, hms, -⟩
  · exact herr
  · obtain ⟨lock, hl, rfl, -⟩ := commit_ok ((runAll_ok hms).1 k hk)
    exact absurd ((h k).of_lock lock hl).1 hst

theorem rollback_key
    {ms : List Modify} (hc : ∀ k t', st k t' ≠ .committed t) (hok : rollback s k t = .ok ms) :
    (∀ c, st k t ≠ .committed c) ∧ ∃ r', Turns ms k (s k) r' ∧
      ((r' = s k ∧ update (st k) t .rolledBack = st k) ∨
        RowMove (st k) t (s k) r' .rolledBack) := by
  rcases rollback_ok hok with ⟨c, w, hrec, hw, rfl⟩ | ⟨hrec, hturn⟩
  · have hst := (h k).status_of_record hrec
    rw [recordStatus, if_pos hw] at hst
    refine ⟨by simp [hst], s k, Turns.nil _ _, .inl ⟨rfl, ?_⟩⟩
    rw [update_eq_self_iff]
    exact hst.symm
  · have hst := (h k).getTxnCommitRecord_eq_none_iff.mp hrec
    refine ⟨fun c => ?_, _, hturn, .inr (.rollback hst (hc k))⟩
    rcases hst with hst | hst <;> rw [hst] <;> simp

theorem batchRollback_spec {keys : List Key} (hn : keys.Nodup)
    (hc : ∀ k t', st k t' ≠ .committed t) (hrun : batchRollback s keys t = (e, s')) :
    (e ≠ none ∧ s' = s) ∨ (e = none ∧ (∀ k ∈ keys, ∀ c, st k t ≠ .committed c) ∧
      Moved s st t s' (setStatus st keys t .rolledBack)) := by
  rcases finish_eq hrun with herr | ⟨rfl, ms, hms, rfl⟩
  · exact .inl herr
  · obtain ⟨hacts, rfl⟩ := runAll_ok hms
    refine .inr ⟨rfl, fun k hk => (rollback_key h hc (hacts k hk)).1,
      Moved.batch_keys hn (fun k hk => ?_) fun k hk => setStatus_of_notMem hk⟩
    obtain ⟨-, r', hturn, ⟨hr', hst⟩ | hmove⟩ := rollback_key h hc (hacts k hk)
    · exact ⟨r', hturn, .inl ⟨hr', (setStatus_of_mem hk).trans hst⟩⟩
    · exact ⟨r', hturn, .inr ⟨_, hmove, setStatus_of_mem hk⟩⟩

end

def lockedKeys (st : Statuses) (keys : List Key) (t : TimeStamp) : List Key :=
  keys.filter fun k => st k t = .locked

theorem mem_lockedKeys {keys : List Key} :
    k ∈ lockedKeys st keys t ↔ k ∈ keys ∧ st k t = .locked := by
  simp [lockedKeys]

theorem resolveLock_spec {keys : List Key} {v : KeyStatus} (h : Rep s st) (hn : keys.Nodup)
    (hv : (0 < c ∧ v = .committed c ∧ t < c ∧ (∀ k t', st k t' = .committed c → t' = t) ∧
        ∀ k, st k c ≠ .rolledBack) ∨
      (c = 0 ∧ v = .rolledBack ∧ ∀ k t', st k t' ≠ .committed t))
    (hrun : resolveLock s t c keys = (e, s')) : (e ≠ none ∧ s' = s) ∨
    (e = none ∧ Moved s st t s' (setStatus st (lockedKeys st keys t) t v)) := by
  rcases finish_eq hrun with herr | ⟨rfl, ms, hms, rfl⟩
  · exact .inl herr
  · obtain ⟨hacts, rfl⟩ := runAll_ok hms
    refine .inr ⟨rfl, Moved.batch_keys hn (fun k hk => ?_) fun k hk =>
      setStatus_of_notMem fun hk' => hk (mem_lockedKeys.mp hk').1⟩
    rcases resolveLock_ok (hacts k hk) with ⟨hno, hnil⟩ | ⟨⟨lock, hl, rfl⟩, hact⟩
    · have hst : k ∉ lockedKeys st keys t := fun hk' => by
        obtain ⟨lock, hl, hlt⟩ := (h k).lock_of t (mem_lockedKeys.mp hk').2
        exact hno lock hl hlt
      exact ⟨s k, hnil ▸ Turns.nil _ _, .inl ⟨rfl, setStatus_of_notMem hst⟩⟩
    · have hlocked := ((h k).of_lock lock hl).1
      have hset : setStatus st (lockedKeys st keys lock.startTS) lock.startTS v k =
          update (st k) lock.startTS v :=
        setStatus_of_mem (mem_lockedKeys.mpr ⟨hk, hlocked⟩)
      rcases hv with ⟨hc0, rfl, hlt, hc, hr⟩ | ⟨hc0, rfl, hc⟩
      · have hcom : Txn.commit s k lock.startTS c = .ok _ :=
          (hact.resolve_right fun hr => absurd hr.1 hc0.ne').2
        obtain ⟨l, hl', hlt', _, ⟨hp, _⟩ | ⟨_, hturn⟩⟩ := commit_ok hcom
        · exact absurd hp ((h k).of_lock l hl').2
        · refine ⟨_, hturn, .inr ⟨_, .commit l c hl' hlt' hlt ?_ (hr k), hset⟩⟩
          intro t' ht'
          rw [hc k t' ht', hlocked] at ht'
          cases ht'
      · have hrb : rollback s k lock.startTS = .ok _ :=
          (hact.resolve_left fun hp => absurd hc0 hp.1.ne').2
        obtain ⟨-, r', hturn, ⟨hr', hst⟩ | hmove⟩ := rollback_key h hc hrb
        · exact ⟨r', hturn, .inl ⟨hr', hset.trans hst⟩⟩
        · exact ⟨r', hturn, .inr ⟨_, hmove, hset⟩⟩

theorem checkTxnStatus_spec {p : Key} {caller : TimeStamp} {rb : Bool} {status : TxnStatus}
    (h : Rep s st) (hc : ∀ k t', st k t' ≠ .committed t)
    (hrun : checkTxnStatusWithCleanup s p t caller rb = (status, s')) :
    (s' = s ∧ (st p t = .locked ∧ status.isLocked = true ∧ status.isRolledBack = false ∧
          status.commitTS = 0 ∨
        st p t = .committed status.commitTS ∧ status.isLocked = false ∧
          status.isRolledBack = false ∨
        st p t = .rolledBack ∧ status = { isRolledBack := true } ∨
        st p t = .absent ∧ status = {})) ∨
    (status = { isRolledBack := true } ∧ (∀ c, st p t ≠ .committed c) ∧
      Moved s st t s' (setStatus st [p] t .rolledBack)) := by
  unfold checkTxnStatusWithCleanup at hrun
  rcases checkTxnStatusWithCleanup_cases s p t caller rb with
    ⟨lock, hl, rfl, heq⟩ | ⟨hbefore, ms, heq, hturn⟩ | ⟨hno, ⟨q, hq, heq⟩ | ⟨hq, heq⟩⟩
  · rw [heq] at hrun
    obtain ⟨rfl, rfl⟩ := Prod.mk.inj hrun
    exact .inl ⟨rfl, .inl ⟨((h p).of_lock lock hl).1, rfl, rfl, rfl⟩⟩
  · rw [heq] at hrun
    obtain ⟨rfl, rfl⟩ := Prod.mk.inj hrun
    have hst : st p t = .absent ∨ st p t = .locked := by
      rcases hbefore with ⟨lock, hl, rfl⟩ | hnone
      · exact .inr ((h p).of_lock lock hl).1
      · exact (h p).getTxnCommitRecord_eq_none_iff.mp hnone
    refine .inr ⟨rfl, fun c => ?_, fun k => ?_⟩
    · rcases hst with hst | hst <;> rw [hst] <;> simp
    · rw [hturn.applyModifies_eq]
      by_cases hk : k = p
      · subst hk
        rw [update_self]
        exact .inr ⟨_, .rollback hst (hc k), setStatus_of_mem (by simp)⟩
      · rw [update_of_ne hk]
        exact .inl ⟨rfl, setStatus_of_notMem (by simpa using hk)⟩
  · rw [heq] at hrun
    obtain ⟨rfl, rfl⟩ := Prod.mk.inj hrun
    have hst := (h p).status_of_record hq
    refine .inl ⟨rfl, .inr ?_⟩
    rw [recordStatus] at hst
    obtain ⟨c, w⟩ := q
    split at hst
    · rename_i hw
      exact .inr (.inl ⟨hst, if_pos hw⟩)
    · rename_i hw
      have hof : TxnStatus.ofRecord (c, w) = { commitTS := c } := if_neg hw
      rw [hof]
      exact .inl ⟨hst, rfl, rfl⟩
  · rw [heq] at hrun
    obtain ⟨rfl, rfl⟩ := Prod.mk.inj hrun
    refine .inl ⟨rfl, .inr (.inr (.inr ⟨?_, rfl⟩))⟩
    rcases (h p).getTxnCommitRecord_eq_none_iff.mp hq with hst | hst
    · exact hst
    · obtain ⟨lock, hl, hlt⟩ := (h p).lock_of t hst
      exact absurd hlt (hno lock hl)

end Storage
