/-
Snapshot reads and the three ways to commit.
-/
import Gookv.TwoPhaseCommit

open Txntypes Mvcc Txn Storage

namespace SnapshotRead

open Function List Option SnapshotRead Versions

open TwoPhaseCommit (TxnSpec)

structure Workload where
  txns : TimeStamp → TxnSpec
  onePC : TimeStamp → Bool

structure State where
  store : Store
  now : TimeStamp
  started : TimeStamp → Bool
  acked : List (TimeStamp × Key)
  commitTS : TimeStamp → Option TimeStamp
  onePCTS : List (TimeStamp × TimeStamp)
  reads : List (Key × TimeStamp × Option Value)

inductive Action
  | begin (startTS : TimeStamp)
  | prewrite (startTS : TimeStamp) (mutations : List Mutation) (maxCommitTS : TimeStamp)
  | getCommitTS (startTS commitTS : TimeStamp)
  | commit (startTS : TimeStamp) (keys : List Key)
  | batchRollback (startTS : TimeStamp) (keys : List Key)
  | checkTxnStatus (startTS callerStartTS : TimeStamp) (rollbackIfNotExist : Bool)
  | resolveLock (startTS : TimeStamp) (keys : List Key) (toCommit : Bool)
  | getOnePCTS (startTS commitTS : TimeStamp)
  | prewrite1PC (startTS commitTS : TimeStamp)
  | get (key : Key) (readTS : TimeStamp)

def runPrewrite (x : TxnSpec) (s : Store) (t : TimeStamp) (ms : List Mutation)
    (maxCommitTS : TimeStamp) : List (Option TxnError) × Store :=
  if x.useAsyncCommit then
    let (errs, _, s') := Storage.prewriteAsyncCommit s ms x.primary t x.lockTTL
      (x.keys.filter (· ≠ x.primary)) maxCommitTS
    (errs, s')
  else Storage.prewrite s ms x.primary t x.lockTTL

def newAcks (t : TimeStamp) (ms : List Mutation) (errs : List (Option TxnError)) :
    List (TimeStamp × Key) :=
  if errs.any Option.isSome then [] else ms.map fun m => (t, m.key)

def step (w : Workload) (s : State) : Action → Option State
  | .begin t =>
    if s.started t = false ∧ s.now < t then
      some { s with now := t, started := update s.started t true }
    else none
  | .prewrite t ms maxCommitTS =>
    if s.started t ∧ w.onePC t = false ∧ (∀ m ∈ ms, m ∈ (w.txns t).mutations) ∧
        (ms.map (·.key)).Nodup then
      let (errs, store) := runPrewrite (w.txns t) s.store t ms maxCommitTS
      some { s with store := store, acked := newAcks t ms errs ++ s.acked }
    else none
  | .getCommitTS t c =>
    if s.started t ∧ w.onePC t = false ∧ s.commitTS t = none ∧ s.now < c ∧
        ∀ m ∈ (w.txns t).mutations, (t, m.key) ∈ s.acked then
      some { s with now := c, commitTS := update s.commitTS t (some c) }
    else none
  | .commit t keys =>
    match s.commitTS t with
    | some c =>
      if (∀ k ∈ keys, k ∈ (w.txns t).keys) ∧ keys.Nodup then
        some { s with store := (Storage.commit s.store keys t c).2 }
      else none
    | none => none
  | .batchRollback t keys =>
    if s.started t ∧ (∀ k ∈ keys, k ∈ (w.txns t).keys) ∧ keys.Nodup then
      some { s with store := (Storage.batchRollback s.store keys t).2 }
    else none
  | .checkTxnStatus t caller rb =>
    if s.started t then
      some { s with
        store := (Storage.checkTxnStatusWithCleanup s.store (w.txns t).primary t caller rb).2 }
    else none
  | .resolveLock t keys toCommit =>
    if s.started t ∧ keys.Nodup then
      if toCommit then
        match s.commitTS t with
        | some c => some { s with store := (Storage.resolveLock s.store t c keys).2 }
        | none => none
      else some { s with store := (Storage.resolveLock s.store t 0 keys).2 }
    else none
  | .getOnePCTS t c =>
    if s.started t ∧ w.onePC t ∧ s.now < c then
      some { s with now := c, onePCTS := (t, c) :: s.onePCTS }
    else none
  | .prewrite1PC t c =>
    if (t, c) ∈ s.onePCTS then
      let x := w.txns t
      let (_, _, store) := Storage.prewrite1PC s.store x.mutations x.primary t c x.lockTTL
      some { s with store := store }
    else none
  | .get k ts =>
    if ts ≤ s.now then
      match PointGetter.get { ts := ts } s.store k with
      | .ok v => some { s with reads := (k, ts, v) :: s.reads }
      | .error _ => some s
    else none

def system (w : Workload) : StepSystem State Action where
  start :=
    { store := Store.empty, now := 0, started := fun _ => false, acked := [],
      commitTS := fun _ => none, onePCTS := [], reads := [] }
  step := step w

def Repeatable (s : State) : Prop :=
  ∀ k ts v v', (k, ts, v) ∈ s.reads → (k, ts, v') ∈ s.reads → v = v'

def onePCProps (w : Workload) (t c : TimeStamp) : OnePCProps where
  startTS := t
  commitTS := c
  primary := (w.txns t).primary
  lockTTL := (w.txns t).lockTTL

def Settled (w : Workload) (s : State) : Action → Prop
  | .prewrite t ms _ => NoLateLock s.store t (ms.map (·.key))
  | .prewrite1PC t c =>
    NoLateOnePC s.store (onePCProps w t c) (w.txns t).mutations ∧
      ((∀ m ∈ (w.txns t).mutations, onePCError s.store (onePCProps w t c) m = none) →
        ∀ x ∈ s.reads, x.1 ∈ (w.txns t).keys → x.2.1 < c)
  | _ => True

instance (w : Workload) (s : State) : (a : Action) → Decidable (Settled w s a)
  | .prewrite _ _ _ => inferInstanceAs (Decidable (NoLateLock _ _ _))
  | .prewrite1PC _ _ => inferInstanceAs (Decidable (_ ∧ _))
  | .begin _ | .getCommitTS _ _ | .commit _ _ | .batchRollback _ _ | .checkTxnStatus _ _ _
  | .resolveLock _ _ _ | .getOnePCTS _ _ | .get _ _ => inferInstanceAs (Decidable True)

/-! ### The invariant -/

def CommitAt (s : State) (t c : TimeStamp) : Prop :=
  s.commitTS t = some c ∨ (t, c) ∈ s.onePCTS

structure ClockInv (s : State) : Prop where
  le_now : ∀ t, s.started t → t ≤ s.now
  started_of : ∀ t c, CommitAt s t c → s.started t
  commitTS_le_now : ∀ t c, CommitAt s t c → t < c ∧ c ≤ s.now
  commitTS_ne : ∀ t t' c, CommitAt s t c → s.started t' → c ≠ t'
  commitTS_inj : ∀ t t' c, CommitAt s t c → CommitAt s t' c → t = t'

structure StatusInv (w : Workload) (s : State) (st : Statuses) : Prop where
  own : ∀ k t, st k t ≠ .absent → s.started t ∧ k ∈ (w.txns t).keys
  committed_at : ∀ k t c, st k t = .committed c → CommitAt s t c
  acked : ∀ t k, (t, k) ∈ s.acked → st k t ≠ .absent
  touched : ∀ t c, s.commitTS t = some c → ∀ k ∈ (w.txns t).keys, st k t ≠ .absent
  unlocked : ∀ k t, w.onePC t → st k t ≠ .locked

structure ReadInv (s : State) (st : Statuses) : Prop where
  le_now : ∀ k ts v, (k, ts, v) ∈ s.reads → ts ≤ s.now
  visible : ∀ k ts v, (k, ts, v) ∈ s.reads → v = visibleValue s.store k ts
  not_locked : ∀ k ts v t c, (k, ts, v) ∈ s.reads → s.commitTS t = some c → c ≤ ts →
    st k t ≠ .locked

structure Inv (w : Workload) (s : State) (st : Statuses) : Prop where
  rep : Rep s.store st
  jumps : ∀ k, NoJumps (s.store k)
  clock : ClockInv s
  kind : ∀ t, (∃ c, (t, c) ∈ s.onePCTS) → w.onePC t = true
  status : StatusInv w s st
  read : ReadInv s st

theorem Inv.repeatable {w : Workload} {s : State} {st : Statuses} (h : Inv w s st) :
    Repeatable s := fun k ts v v' hv hv' =>
  (h.read.visible k ts v hv).trans (h.read.visible k ts v' hv').symm

/-! ### Moves below and above a read -/

variable {v : KeyStatus} {ts : TimeStamp} {σ : TimeStamp → KeyStatus} {r r' : Row} {t : TimeStamp}

theorem RowMove.noJumps (hm : RowMove σ t r r' v) (h : NoJumps r) : NoJumps r' := by
  cases hm with
  | lock lock m =>
    intro q hq
    rw [prewritten_writes] at hq
    exact h q hq
  | commit lock c | rollback =>
    intro q hq
    rcases mem_put.mp hq with rfl | ⟨-, hq⟩
    · rfl
    · exact h q hq
  | onePC props m =>
    intro q hq
    rw [onePCCommitted_writes] at hq
    rcases mem_put.mp hq with rfl | ⟨-, hq⟩
    · rfl
    · exact h q hq

theorem mem_put_iff {c : TimeStamp} {w : Write} {q : TimeStamp × Write}
    (hfree : ∀ q ∈ r.writes.entries, q.1 ≠ c) (hq : q ≠ (c, w)) :
    q ∈ (r.writes.put c w).entries ↔ q ∈ r.writes.entries := by
  rw [mem_put]
  constructor
  · rintro (h | ⟨-, h⟩)
    · exact absurd h hq
    · exact h
  · exact fun h => .inr ⟨hfree q h, h⟩

theorem RowMove.ne_committed {c : TimeStamp}
    (hm : RowMove σ t r r' (.committed c)) : σ t ≠ .committed c := by
  cases hm with
  | commit lock _ _ _ _ hne => exact hne t
  | onePC props m _ ha =>
    rw [ha]
    exact fun h => nomatch h

theorem RowMove.visibleValue_eq {s s' : Store} {k : Key} (h : Represents (s k) σ) (hj : NoJumps (s k))
    (hm : RowMove σ t (s k) (s' k) v) (hts : ∀ c, v = .committed c → ts < c) :
    visibleValue s' k ts = visibleValue s k ts := by
  have hj' := RowMove.noJumps hm hj
  -- no record of the moving transaction is there yet, so its values do not matter
  have hother : σ t = .absent ∨ σ t = .locked →
      ∀ q ∈ (s k).writes.entries, q.2.startTS ≠ t := by
    rintro hst q hq rfl
    have hrec := h.of_record q hq
    rw [recordStatus] at hrec
    rcases hst with hst | hst <;> rw [hst] at hrec <;> split at hrec <;>
      cases hrec
  generalize hr' : s' k = r' at hm
  cases hm with
  | lock lock m hl ha ht =>
    refine visibleValue_congr hj hj' (fun q _ _ => ?_) fun q hq => ?_
    · rw [hr', prewritten_writes]
    · rw [hr', prewritten_values_of_ne (ht ▸ hother (.inl ha) q hq)]
  | commit lock c hl ht hlt hc hr =>
    refine visibleValue_congr hj hj' (fun q hq _ => ?_) fun q _ => ?_
    · rw [hr', committed_writes]
      refine mem_put_iff (h.ne_of_mem hc hr) ?_
      rintro rfl
      exact absurd hq (not_le.mpr (hts c rfl))
    · rw [hr', committed_values]
  | rollback hst hc =>
    have hr : σ t ≠ .rolledBack := by
      rcases hst with hst | hst <;> rw [hst] <;> simp
    refine visibleValue_congr hj hj' (fun q _ hd => ?_) fun q hq => ?_
    · rw [hr', rolledBack_writes]
      refine mem_put_iff (h.ne_of_mem hc hr) ?_
      rintro rfl
      exact absurd hd (by simp [rollbackWrite, Write.isDataChanged])
    · rw [hr', rolledBack_values_of_ne (.inl (hother hst q hq))]
  | onePC props m ht ha hlt hc hr =>
    refine visibleValue_congr hj hj' (fun q hq _ => ?_) fun q hq => ?_
    · rw [hr', onePCCommitted_writes]
      refine mem_put_iff (h.ne_of_mem hc hr) ?_
      rintro rfl
      exact absurd hq (not_le.mpr (hts _ rfl))
    · rw [hr', onePCCommitted_values_of_ne (ht ▸ hother (.inl ha) q hq)]

/-! ### Every step keeps the invariant -/

section

variable {w : Workload} {s s' : State} {st : Statuses} {t c : TimeStamp}

variable {keys : List Key} {store' : Store}

section
variable (h : Inv w s st)
include h

theorem Inv.command {st' : Statuses}
    (acks : List (TimeStamp × Key)) (hm : Moved s.store st t store' st') (hstarted : s.started t)
    (hkeys : ∀ k, st' k t ≠ .absent → k ∈ (w.txns t).keys)
    (hcom : ∀ k c, st' k t = .committed c → st k t = .committed c ∨
      CommitAt s t c ∧ ∀ ts v, (k, ts, v) ∈ s.reads → ts < c)
    (hlock : w.onePC t → ∀ k, st' k t ≠ .locked) (hacks : ∀ x ∈ acks, st' x.2 x.1 ≠ .absent) :
    Inv w { s with store := store', acked := acks ++ s.acked } st' := by
  have htouched : ∀ k t', st k t' ≠ .absent → st' k t' ≠ .absent := by
    intro k t' hst
    rcases hm.status_cases h.rep k t' with heq | ⟨-, hne⟩
    · rwa [heq]
    · exact hne
  constructor
  case rep => exact h.rep.moved hm
  case jumps =>
    intro k
    change NoJumps (store' k)
    rcases hm k with ⟨hrow, -⟩ | ⟨v, hv, -⟩
    · rw [hrow]
      exact h.jumps k
    · exact RowMove.noJumps hv (h.jumps k)
  case clock =>
    exact ⟨h.clock.le_now, h.clock.started_of, h.clock.commitTS_le_now, h.clock.commitTS_ne,
      h.clock.commitTS_inj⟩
  case kind => exact h.kind
  case status =>
    constructor
    · intro k t' hst
      by_cases ht : t' = t
      · subst ht
        exact ⟨hstarted, hkeys k hst⟩
      · exact h.status.own k t' (hm.of_ne ht k ▸ hst)
    · intro k t' c hst
      by_cases ht : t' = t
      · subst ht
        exact (hcom k c hst).elim (h.status.committed_at k t' c) fun hc => hc.1
      · exact h.status.committed_at k t' c (hm.of_ne ht k ▸ hst)
    · intro t' k hk
      rcases mem_append.mp hk with hk | hk
      · exact hacks _ hk
      · exact htouched k t' (h.status.acked t' k hk)
    · exact fun t' c hc k hk => htouched k t' (h.status.touched t' c hc k hk)
    · intro k t' hone
      by_cases ht : t' = t
      · subst ht
        exact hlock hone k
      · rw [hm.of_ne ht k]
        exact h.status.unlocked k t' hone
  case read =>
    constructor
    · exact h.read.le_now
    · intro k ts v hv
      rw [h.read.visible k ts v hv]
      rcases hm k with ⟨hrow, -⟩ | ⟨v', hv', hst'⟩
      · exact (visibleValue_of_row (congrArg Row.writes hrow) (congrArg Row.values hrow) ts).symm
      · refine (RowMove.visibleValue_eq (h.rep k) (h.jumps k) hv' fun c hc => ?_).symm
        have hst : st' k t = .committed c := by rw [hst', update_self, hc]
        rcases hcom k c hst with hold | ⟨-, habove⟩
        · exact absurd hold (RowMove.ne_committed (hc ▸ hv'))
        · exact habove ts v hv
    · intro k ts v t' c hv hc hle hst
      rcases hm.status_cases h.rep k t' with heq | ⟨hold | hold, -⟩
      · exact h.read.not_locked k ts v t' c hv hc hle (heq ▸ hst)
      · -- a transaction with a commit timestamp has touched all its keys already
        have hk : k ∈ (w.txns t').keys := by
          by_cases ht : t' = t
          · subst ht
            exact hkeys k (by simp [hst])
          · exact absurd ((hm.of_ne ht k).symm.trans hst) (by simp [hold])
        exact h.status.touched t' c hc k hk hold
      · exact h.read.not_locked k ts v t' c hv hc hle hold

theorem Inv.commitTS_free (hc : CommitAt s t c) :
    t < c ∧ (∀ k t', st k t' = .committed c → t' = t) ∧ ∀ k, st k c ≠ .rolledBack := by
  refine ⟨(h.clock.commitTS_le_now t c hc).1, fun k t' hst => ?_, fun k hst => ?_⟩
  · exact h.clock.commitTS_inj t' t c (h.status.committed_at k t' c hst) hc
  · exact h.clock.commitTS_ne t c c hc (h.status.own k c (by simp [hst])).1 rfl

theorem Inv.ne_committed (ht : s.started t) (k : Key) (t' : TimeStamp) : st k t' ≠ .committed t :=
  fun hst => h.clock.commitTS_ne t' t t (h.status.committed_at k t' t hst) ht rfl

theorem Inv.reads_lt {k : Key} (hc : s.commitTS t = some c)
    (hlocked : st k t = .locked) {v : Option Value} (hv : (k, ts, v) ∈ s.reads) : ts < c :=
  not_le.mp fun hle => h.read.not_locked k ts v t c hv hc hle hlocked

theorem Inv.prewrite {ms : List Mutation} {maxTS : TimeStamp}
    (hstarted : s.started t) (hkind : w.onePC t = false)
    (hms : ∀ m ∈ ms, m ∈ (w.txns t).mutations) (hn : (ms.map (·.key)).Nodup)
    (hlate : NoLateLock s.store t (ms.map (·.key))) {errs : List (Option TxnError)}
    (hrun : runPrewrite (w.txns t) s.store t ms maxTS = (errs, store')) :
    ∃ st', Inv w { s with store := store', acked := newAcks t ms errs ++ s.acked } st' := by
  have hspec : (errs.any isSome = true ∧ store' = s.store) ∨
      (errs.any isSome = false ∧
        (∀ m ∈ ms, st m.key t = .absent ∨ st m.key t = .locked) ∧
        Moved s.store st t store' (setStatus st (ms.map (·.key)) t .locked)) := by
    unfold runPrewrite at hrun
    split at hrun
    · obtain ⟨rfl, rfl⟩ := Prod.mk.inj hrun
      exact prewriteAsyncCommit_spec h.rep hn hlate rfl
    · exact prewrite_spec h.rep hn hlate hrun
  rcases hspec with ⟨herr, rfl⟩ | ⟨herr, -, hm⟩
  · refine ⟨st, ?_⟩
    rw [newAcks, if_pos herr]
    exact h
  · refine ⟨_, h.command _ hm hstarted (fun k hst => ?_) (fun k c hst => ?_) (fun hone => ?_) ?_⟩
    · rcases setStatus_cases st (ms.map (·.key)) t .locked k t with ⟨hk, -, -⟩ | heq
      · obtain ⟨m, hm', rfl⟩ := mem_map.mp hk
        exact mem_map_of_mem (hms m hm')
      · exact (h.status.own k t (heq ▸ hst)).2
    · rcases setStatus_cases st (ms.map (·.key)) t .locked k t with ⟨-, -, heq⟩ | heq
      · exact absurd (heq.symm.trans hst) (by simp)
      · exact .inl (heq ▸ hst)
    · exact absurd hone (by simp [hkind])
    · intro x hx
      rw [newAcks, if_neg (by simp [herr])] at hx
      obtain ⟨m, hm', rfl⟩ := mem_map.mp hx
      rw [setStatus_self (mem_map_of_mem hm')]
      simp

theorem Inv.finish (hstarted : s.started t) (hkeys : ∀ k ∈ keys, k ∈ (w.txns t).keys)
    (hv : v = .rolledBack ∨ ∃ c, v = .committed c ∧ s.commitTS t = some c ∧
      ∀ k ∈ keys, st k t = .locked) (hm : Moved s.store st t store' (setStatus st keys t v)) :
    ∃ st', Inv w { s with store := store' } st' := by
  refine ⟨_, h.command [] hm hstarted (fun k hst => ?_) (fun k c hst => ?_)
    (fun hone k => ?_) (by simp)⟩
  · rcases setStatus_cases st keys t v k t with ⟨hk, -, -⟩ | heq
    · exact hkeys k hk
    · exact (h.status.own k t (heq ▸ hst)).2
  · rcases setStatus_cases st keys t v k t with ⟨hk, -, heq⟩ | heq
    · rw [heq] at hst
      rcases hv with rfl | ⟨c', rfl, hc', hlocked⟩
      · cases hst
      · obtain rfl := KeyStatus.committed.inj hst
        exact .inr ⟨.inl hc', fun ts x hx => h.reads_lt hc' (hlocked k hk) hx⟩
    · exact .inl (heq ▸ hst)
  · rcases setStatus_cases st keys t v k t with ⟨hk, -, heq⟩ | heq
    · rw [heq]
      rcases hv with rfl | ⟨c', rfl, -⟩ <;> simp
    · rw [heq]
      exact h.status.unlocked k t hone

theorem Inv.prewrite1PC (hdrawn : (t, c) ∈ s.onePCTS)
    (hsettled : Settled w s (.prewrite1PC t c)) {errs : List (Option TxnError)}
        (hrun : Storage.prewrite1PC s.store (w.txns t).mutations (w.txns t).primary t c
      (w.txns t).lockTTL = (errs, ts, store')) : ∃ st', Inv w { s with store := store' } st' := by
  obtain ⟨hlate, hreads⟩ := hsettled
  obtain ⟨hlt, hc, hr⟩ := h.commitTS_free (.inr hdrawn)
  have hone : w.onePC t = true := h.kind t ⟨c, hdrawn⟩
  have hstarted := h.clock.started_of t c (.inr hdrawn)
  rcases prewrite1PC_spec (onePCProps w t c) h.rep (w.txns t).nodup hlate
    (fun k => h.status.unlocked k t hone) hlt hc hr hrun with ⟨-, rfl⟩ | ⟨-, hok, -, hm⟩
  · exact ⟨st, h⟩
  · refine ⟨_, h.command [] hm hstarted (fun k hst => ?_) (fun k c' hst => ?_)
      (fun _ k => ?_) (by simp)⟩
    · rcases setStatus_cases st (w.txns t).keys t (.committed c) k t with ⟨hk, -, -⟩ | heq
      · exact hk
      · exact (h.status.own k t (heq ▸ hst)).2
    · rcases setStatus_cases st (w.txns t).keys t (.committed c) k t with ⟨hk, -, heq⟩ | heq
      · obtain rfl := KeyStatus.committed.inj (heq.symm.trans hst)
        exact .inr ⟨.inr hdrawn, fun ts v hv => hreads hok _ hv hk⟩
      · exact .inl (heq ▸ hst)
    · rcases setStatus_cases st (w.txns t).keys t (.committed c) k t with ⟨-, -, heq⟩ | heq
      · exact fun hst => absurd (heq.symm.trans hst) (by simp)
      · exact fun hst => h.status.unlocked k t hone (heq ▸ hst)

theorem Inv.get {k : Key} (hts : ts ≤ s.now)
    {v : Option Value} (hget : PointGetter.get { ts := ts } s.store k = .ok v) :
    Inv w { s with reads := (k, ts, v) :: s.reads } st := by
  obtain ⟨hv, hlock⟩ := get_eq_ok hget
  refine ⟨h.rep, h.jumps, ⟨h.clock.le_now, h.clock.started_of, h.clock.commitTS_le_now,
    h.clock.commitTS_ne, h.clock.commitTS_inj⟩, h.kind, ⟨h.status.own, h.status.committed_at,
    h.status.acked, h.status.touched, h.status.unlocked⟩, ?_⟩
  constructor
  · intro k' ts' v' hmem
    rcases mem_cons.mp hmem with heq | hmem
    · obtain ⟨rfl, rfl, rfl⟩ : k' = k ∧ ts' = ts ∧ v' = v := by simpa using heq
      exact hts
    · exact h.read.le_now k' ts' v' hmem
  · intro k' ts' v' hmem
    rcases mem_cons.mp hmem with heq | hmem
    · obtain ⟨rfl, rfl, rfl⟩ : k' = k ∧ ts' = ts ∧ v' = v := by simpa using heq
      exact hv
    · exact h.read.visible k' ts' v' hmem
  · intro k' ts' v' t c hmem hc hle
    rcases mem_cons.mp hmem with heq | hmem
    · obtain ⟨rfl, rfl, rfl⟩ : k' = k ∧ ts' = ts ∧ v' = v := by simpa using heq
      -- a lock of `t` would be from the past of the read and stop it
      intro hst
      obtain ⟨lock, hl, rfl⟩ := (h.rep k').lock_of t hst
      have hlt := (h.clock.commitTS_le_now _ c (.inl hc)).1
      exact ((h.rep k').of_lock lock hl).2 (hlock lock hl (hlt.le.trans hle))
    · exact h.read.not_locked k' ts' v' t c hmem hc hle

end

theorem ClockInv.begin (h : ClockInv s) (hlt : s.now < t) :
    ClockInv { s with now := t, started := update s.started t true } := by
  have hold : ∀ t', update s.started t true t' = true → t' = t ∨ s.started t' := by
    intro t' ht'
    by_cases heq : t' = t
    · exact .inl heq
    · rw [update_of_ne heq] at ht'
      exact .inr ht'
  refine ⟨fun t' ht' => ?_, fun t' c hc => ?_, fun t' c hc => ?_, fun t' t'' c hc ht'' => ?_,
    h.commitTS_inj⟩
  · rcases hold t' ht' with rfl | ht'
    · exact le_rfl
    · exact (h.le_now t' ht').trans hlt.le
  · by_cases heq : t' = t
    · simp [heq]
    · exact (update_of_ne heq _ _).trans (h.started_of t' c hc)
  · exact ⟨(h.commitTS_le_now t' c hc).1, (h.commitTS_le_now t' c hc).2.trans hlt.le⟩
  · rcases hold t'' ht'' with rfl | ht''
    · rintro rfl
      exact absurd (h.commitTS_le_now t' _ hc).2 (not_le.mpr hlt)
    · exact h.commitTS_ne t' t'' c hc ht''

theorem ClockInv.draw (h : ClockInv s) (hs : s.started t) (hlt : s.now < c)
    (hnow : s'.now = c) (hstarted : s'.started = s.started)
    (hcom : ∀ t' c', CommitAt s' t' c' → CommitAt s t' c' ∨ t' = t ∧ c' = c) : ClockInv s' := by
  refine ⟨fun t' ht' => ?_, fun t' c' hc' => ?_, fun t' c' hc' => ?_,
    fun t' t'' c' hc' ht'' => ?_, fun t' t'' c' hc' hc'' => ?_⟩
  · rw [hnow]
    exact (h.le_now t' (hstarted ▸ ht')).trans hlt.le
  · rw [hstarted]
    rcases hcom t' c' hc' with hc' | ⟨rfl, rfl⟩
    · exact h.started_of t' c' hc'
    · exact hs
  · rw [hnow]
    rcases hcom t' c' hc' with hc' | ⟨rfl, rfl⟩
    · exact ⟨(h.commitTS_le_now t' c' hc').1, (h.commitTS_le_now t' c' hc').2.trans hlt.le⟩
    · exact ⟨(h.le_now _ hs).trans_lt hlt, le_rfl⟩
  · rw [hstarted] at ht''
    rcases hcom t' c' hc' with hc' | ⟨rfl, rfl⟩
    · exact h.commitTS_ne t' t'' c' hc' ht''
    · rintro rfl
      exact absurd (h.le_now _ ht'') (not_le.mpr hlt)
  · rcases hcom t' c' hc' with h1 | ⟨rfl, rfl⟩ <;> rcases hcom t'' _ hc'' with h2 | ⟨rfl, heq⟩
    · exact h.commitTS_inj t' t'' c' h1 h2
    · subst heq
      exact absurd (h.commitTS_le_now t' _ h1).2 (not_le.mpr hlt)
    · exact absurd (h.commitTS_le_now t'' _ h2).2 (not_le.mpr hlt)
    · rfl

section
variable (h : Inv w s st)
include h

theorem Inv.begin (hlt : s.now < t) :
    Inv w { s with now := t, started := update s.started t true } st := by
  refine ⟨h.rep, h.jumps, h.clock.begin hlt, h.kind, ⟨fun k t' hst => ?_,
    h.status.committed_at, h.status.acked, h.status.touched, h.status.unlocked⟩,
    ⟨fun k ts v hv => (h.read.le_now k ts v hv).trans hlt.le, h.read.visible,
    h.read.not_locked⟩⟩
  obtain ⟨hs, hk⟩ := h.status.own k t' hst
  by_cases heq : t' = t
  · subst heq
    exact ⟨update_self _ _ _, hk⟩
  · exact ⟨(update_of_ne heq _ _).trans hs, hk⟩

theorem Inv.getCommitTS (hs : s.started t) (hnone : s.commitTS t = none)
    (hlt : s.now < c) (hack : ∀ m ∈ (w.txns t).mutations, (t, m.key) ∈ s.acked) :
    Inv w { s with now := c, commitTS := update s.commitTS t (some c) } st := by
  have hold : ∀ t' c', update s.commitTS t (some c) t' = some c' →
      s.commitTS t' = some c' ∨ t' = t ∧ c' = c := by
    intro t' c' hc'
    by_cases heq : t' = t
    · subst heq
      rw [update_self, some_inj] at hc'
      exact .inr ⟨rfl, hc'.symm⟩
    · rw [update_of_ne heq] at hc'
      exact .inl hc'
  have hnew : ∀ t' c', s.commitTS t' = some c' →
      update s.commitTS t (some c) t' = some c' := by
    intro t' c' hc'
    have hne : t' ≠ t := by
      rintro rfl
      exact absurd (hnone.symm.trans hc') (by simp)
    rwa [update_of_ne hne]
  refine ⟨h.rep, h.jumps, h.clock.draw hs hlt rfl rfl fun t' c' hc' => ?_, h.kind,
    ⟨h.status.own, fun k t' c' hst => ?_, h.status.acked, fun t' c' hc' k hk => ?_,
      h.status.unlocked⟩,
    ⟨fun k ts v hv => (h.read.le_now k ts v hv).trans hlt.le, h.read.visible,
      fun k ts v t' c' hv hc' hle => ?_⟩⟩
  · rcases hc' with hc' | hc'
    · exact (hold t' c' hc').imp_left .inl
    · exact .inl (.inr hc')
  · exact (h.status.committed_at k t' c' hst).imp_left (hnew t' c')
  · rcases hold t' c' hc' with hc' | ⟨rfl, -⟩
    · exact h.status.touched t' c' hc' k hk
    · obtain ⟨m, hm, rfl⟩ := mem_map.mp hk
      exact h.status.acked _ _ (hack m hm)
  · rcases hold t' c' hc' with hc' | ⟨-, rfl⟩
    · exact h.read.not_locked k ts v t' c' hv hc' hle
    · -- the new timestamp is above every read so far
      exact absurd (hle.trans (h.read.le_now k ts v hv)) (not_le.mpr hlt)

theorem Inv.getOnePCTS (hs : s.started t) (hone : w.onePC t = true)
    (hlt : s.now < c) : Inv w { s with now := c, onePCTS := (t, c) :: s.onePCTS } st := by
  refine ⟨h.rep, h.jumps, h.clock.draw hs hlt rfl rfl fun t' c' hc' => ?_, ?_,
    ⟨h.status.own, fun k t' c' hst => ?_, h.status.acked, h.status.touched,
      h.status.unlocked⟩,
    ⟨fun k ts v hv => (h.read.le_now k ts v hv).trans hlt.le, h.read.visible,
      h.read.not_locked⟩⟩
  · rcases hc' with hc' | hc'
    · exact .inl (.inl hc')
    · rcases mem_cons.mp hc' with heq | hc'
      · exact .inr (Prod.mk.inj heq)
      · exact .inl (.inr hc')
  · rintro t' ⟨c', hc'⟩
    rcases mem_cons.mp hc' with heq | hc'
    · rw [(Prod.mk.inj heq).1]
      exact hone
    · exact h.kind t' ⟨c', hc'⟩
  · exact (h.status.committed_at k t' c' hst).imp_right (mem_cons_of_mem _)

theorem Inv.commit (hc : s.commitTS t = some c)
    (hkeys : ∀ k ∈ keys, k ∈ (w.txns t).keys) (hn : keys.Nodup) :
    ∃ st', Inv w { s with store := (Storage.commit s.store keys t c).2 } st' := by
  obtain ⟨hlt, hfree, hr⟩ := h.commitTS_free (.inl hc)
  obtain ⟨e, store', hrun⟩ : ∃ e store', Storage.commit s.store keys t c = (e, store') :=
    ⟨_, _, rfl⟩
  rw [hrun]
  rcases commit_spec h.rep hn hlt hfree hr hrun with ⟨-, rfl⟩ | ⟨-, hlocked, hm⟩
  · exact ⟨st, h⟩
  · exact h.finish (h.clock.started_of t c (.inl hc)) hkeys
      (.inr ⟨c, rfl, hc, hlocked⟩) hm

theorem Inv.batchRollback (hs : s.started t)
    (hkeys : ∀ k ∈ keys, k ∈ (w.txns t).keys) (hn : keys.Nodup) :
    ∃ st', Inv w { s with store := (Storage.batchRollback s.store keys t).2 } st' := by
  obtain ⟨e, store', hrun⟩ : ∃ e store', Storage.batchRollback s.store keys t = (e, store') :=
    ⟨_, _, rfl⟩
  rw [hrun]
  rcases batchRollback_spec h.rep hn (h.ne_committed hs) hrun with ⟨-, rfl⟩ | ⟨-, -, hm⟩
  · exact ⟨st, h⟩
  · exact h.finish hs hkeys (.inl rfl) hm

theorem Inv.checkTxnStatus (hs : s.started t) (caller : TimeStamp) (rb : Bool) :
    ∃ st', Inv w { s with store :=
      (Storage.checkTxnStatusWithCleanup s.store (w.txns t).primary t caller rb).2 } st' := by
  obtain ⟨x, store', hrun⟩ : ∃ x store', Storage.checkTxnStatusWithCleanup s.store
      (w.txns t).primary t caller rb = (x, store') := ⟨_, _, rfl⟩
  rw [hrun]
  rcases checkTxnStatus_spec h.rep (h.ne_committed hs) hrun with ⟨rfl, -⟩ | ⟨-, -, hm⟩
  · exact ⟨st, h⟩
  · refine h.finish hs (fun k hk => ?_) (.inl rfl) hm
    rw [mem_singleton.mp hk]
    exact (w.txns t).primary_mem

theorem Inv.resolveLock (hs : s.started t) (hn : keys.Nodup) (hc : s.commitTS t = some c ∨ c = 0) :
    ∃ st', Inv w { s with store := (Storage.resolveLock s.store t c keys).2 } st' := by
  obtain ⟨e, store', hrun⟩ : ∃ e store', Storage.resolveLock s.store t c keys = (e, store') :=
    ⟨_, _, rfl⟩
  have hkeys : ∀ k ∈ lockedKeys st keys t, k ∈ (w.txns t).keys := fun k hk =>
    (h.status.own k t (by simp [(mem_lockedKeys.mp hk).2])).2
  rw [hrun]
  rcases hc with hc | hc
  · have hfree := h.commitTS_free (.inl hc)
    have hpos : 0 < c := lt_of_le_of_lt UInt64.zero_le hfree.1
    rcases resolveLock_spec h.rep hn (.inl ⟨hpos, rfl, hfree⟩) hrun with ⟨-, rfl⟩ | ⟨-, hm⟩
    · exact ⟨st, h⟩
    · exact h.finish hs hkeys
        (.inr ⟨c, rfl, hc, fun k hk => (mem_lockedKeys.mp hk).2⟩) hm
  · rcases resolveLock_spec h.rep hn (.inr ⟨hc, rfl, h.ne_committed hs⟩) hrun with
      ⟨-, rfl⟩ | ⟨-, hm⟩
    · exact ⟨st, h⟩
    · exact h.finish hs hkeys (.inl rfl) hm

theorem Inv.step {a : Action} (hsettled : Settled w s a)
    (hs : step w s a = some s') : ∃ st', Inv w s' st' := by
  cases a with
  | begin t =>
    rw [SnapshotRead.step] at hs
    split at hs
    · rename_i hg
      exact Option.some.inj hs ▸ ⟨st, h.begin hg.2⟩
    · cases hs
  | prewrite t ms maxTS =>
    rw [SnapshotRead.step] at hs
    split at hs
    · rename_i hg
      obtain ⟨hstarted, hkind, hms, hn⟩ := hg
      exact Option.some.inj hs ▸ h.prewrite hstarted hkind hms hn hsettled rfl
    · cases hs
  | getCommitTS t c =>
    rw [SnapshotRead.step] at hs
    split at hs
    · rename_i hg
      obtain ⟨hstarted, -, hnone, hlt, hack⟩ := hg
      exact Option.some.inj hs ▸ ⟨st, h.getCommitTS hstarted hnone hlt hack⟩
    · cases hs
  | commit t keys =>
    rw [SnapshotRead.step] at hs
    split at hs
    · rename_i c hc
      split at hs
      · rename_i hg
        exact Option.some.inj hs ▸ h.commit hc hg.1 hg.2
      · cases hs
    · cases hs
  | batchRollback t keys =>
    rw [SnapshotRead.step] at hs
    split at hs
    · rename_i hg
      exact Option.some.inj hs ▸ h.batchRollback hg.1 hg.2.1 hg.2.2
    · cases hs
  | checkTxnStatus t caller rb =>
    rw [SnapshotRead.step] at hs
    split at hs
    · rename_i hg
      exact Option.some.inj hs ▸ h.checkTxnStatus hg caller rb
    · cases hs
  | resolveLock t keys toCommit =>
    rw [SnapshotRead.step] at hs
    split at hs
    · rename_i hg
      split at hs
      · split at hs
        · rename_i c hc
          exact Option.some.inj hs ▸ h.resolveLock hg.1 hg.2 (Or.inl hc)
        · cases hs
      · exact Option.some.inj hs ▸ h.resolveLock hg.1 hg.2 (Or.inr rfl)
    · cases hs
  | getOnePCTS t c =>
    rw [SnapshotRead.step] at hs
    split at hs
    · rename_i hg
      obtain ⟨hstarted, hone, hlt⟩ := hg
      exact Option.some.inj hs ▸ ⟨st, h.getOnePCTS hstarted hone hlt⟩
    · cases hs
  | prewrite1PC t c =>
    rw [SnapshotRead.step] at hs
    split at hs
    · rename_i hg
      exact Option.some.inj hs ▸ h.prewrite1PC hg hsettled rfl
    · cases hs
  | get k ts =>
    rw [SnapshotRead.step] at hs
    split at hs
    · rename_i hts
      split at hs
      · rename_i v hget
        exact Option.some.inj hs ▸ ⟨st, h.get hts hget⟩
      · exact Option.some.inj hs ▸ ⟨st, h⟩
    · cases hs

end

end

theorem inv_start (w : Workload) : Inv w (system w).start fun _ _ => .absent where
  rep _ := Represents.empty
  jumps _ := by simp [NoJumps, system, Store.empty]
  clock := ⟨by simp [system], by simp [system, CommitAt], by simp [system, CommitAt],
    by simp [system, CommitAt], by simp [system, CommitAt]⟩
  kind := by simp [system]
  status := ⟨by simp, by simp, by simp [system], by simp [system], by simp⟩
  read := ⟨by simp [system], by simp [system], by simp [system]⟩

/-- **Snapshot reads are repeatable** in every run in which no prewrite touches a
key again that has a record of its transaction, and no one-phase commit lands below
a read of one of its keys. -/
theorem repeatable_of_settled (w : Workload) {s : State}
    (h : (system w).ReachableWhen (Settled w) s) : Repeatable s := by
  obtain ⟨st, hi⟩ := h.invariant (P := fun s => ∃ st, Inv w s st) ⟨_, inv_start w⟩
    fun _ _ _ ⟨_, hi⟩ hsettled hs => hi.step hsettled hs
  exact hi.repeatable

def onePut : Workload where
  txns _ :=
    { primary := [1], mutations := [{ op := .put, key := [1], value := some [7] }],
      lockTTL := 3000, nodup := by decide, primary_mem := by decide }
  onePC _ := true

/-- The commit timestamp `2` is drawn, a reader starts at `3`, and then the commit is run. -/
def passedRun : List Action :=
  [.begin 1, .getOnePCTS 1 2, .begin 3, .get [1] 3, .prewrite1PC 1 2, .get [1] 3]

def settledRun : List Action :=
  [.begin 1, .getOnePCTS 1 2, .prewrite1PC 1 2, .begin 3, .get [1] 3, .batchRollback 3 [[1]],
   .get [1] 3]

theorem repeatable_settledRun : ∃ s, (system onePut).ReachableWhen (Settled onePut) s ∧
    s.reads = [([1], 3, some [7]), ([1], 3, some [7])] ∧ Repeatable s := by
  have hrun : ∃ s, (system onePut).runWhen (Settled onePut) (system onePut).start settledRun =
      some s ∧ s.reads = [([1], 3, some [7]), ([1], 3, some [7])] := ⟨_, rfl, rfl⟩
  obtain ⟨s, hs, hreads⟩ := hrun
  have hreach := StepSystem.reachableWhen_of_run .start hs
  exact ⟨s, hreach, hreads, repeatable_of_settled onePut hreach⟩

theorem unrepeatable_reachable : ∃ s, (system onePut).Reachable s ∧ ¬Repeatable s := by
  have hrun : ∃ s, (system onePut).runFrom (system onePut).start passedRun = some s ∧
      s.reads = [([1], 3, some [7]), ([1], 3, none)] := ⟨_, rfl, rfl⟩
  obtain ⟨s, hs, hreads⟩ := hrun
  refine ⟨s, StepSystem.reachable_of_run .start hs, fun h => ?_⟩
  have heq := h [1] 3 (some [7]) none (by simp [hreads]) (by simp [hreads])
  cases heq

end SnapshotRead
