/-
Runs of transaction commands with arbitrary timestamps.

A client may send any command with any timestamps, late, twice, or in any order.
-/
import Gookv.Commands

open Txntypes Mvcc Txn

namespace Storage

open StepSystem

open LastWrite List Option

def system : StepSystem Store Command where
  start := Store.empty
  step s cmd := some (run s cmd)

/-! ### Rollback is final -/

def RollbackFinal (s : Store) : Prop :=
  ∀ k t, (∀ q₁ ∈ (s k).writes.entries, ∀ q₂ ∈ (s k).writes.entries,
      q₁.2.startTS = t → q₂.2.startTS = t → q₁ = q₂) ∧
    ∀ q ∈ (s k).writes.entries, q.2.startTS = t → q.2.writeType = .rollback →
      lockOf s k t = none

def NoRecord (r : Row) (t : TimeStamp) : Prop := ∀ q ∈ r.writes.entries, q.2.startTS ≠ t

instance (r : Row) (t : TimeStamp) : Decidable (NoRecord r t) :=
  inferInstanceAs (Decidable (∀ q ∈ _, _))

def KeyAction.startTS : KeyAction → TimeStamp
  | .prewrite props _ => props.startTS
  | .prewriteAsyncCommit props _ => props.startTS
  | .onePC props _ => props.startTS
  | .acquirePessimisticLock props _ => props.startTS
  | .prewritePessimistic props _ => props.startTS
  | .pessimisticRollback _ t _ => t
  | .commit _ t _ => t
  | .rollback _ t => t
  | .resolveLock _ t _ => t
  | .checkTxnStatusWithCleanup _ t _ _ => t
  | .cleanup _ t => t
  | .cleanupModifies _ t => t

def KeyAction.begins (s : Store) : KeyAction → Bool
  | .prewrite props m =>
    (s m.key).lock = none ∧ conflictLoop s m.key props.startTS conflictBound tsMax = false
  | .prewriteAsyncCommit props m =>
    (s m.key).lock = none ∧ conflictLoop s m.key props.startTS conflictBound tsMax = false
  | .onePC props m => onePCError s props m = none
  | .acquirePessimisticLock props k =>
    (s k).lock = none ∧ newestConflict s k props.forUpdateTS = false
  | .prewritePessimistic props m =>
    (s m.key).lock = none ∧ newestConflict s m.key props.startTS = false
  | _ => false

def KeyAction.Commits (s : Store) : KeyAction → Prop
  | .onePC props m => lockOf s m.key props.startTS = none ∧ props.startTS ≤ props.commitTS
  | .commit _ t c => t ≤ c
  | .resolveLock _ t c => c = 0 ∨ t ≤ c
  | _ => True

def KeyAction.Timely (s : Store) (a : KeyAction) : Prop :=
  (a.begins s → NoRecord (s a.key) a.startTS) ∧ a.Commits s

def Timely (s : Store) (cmd : Command) : Prop := ∀ a ∈ cmd.actions, a.Timely s

instance (s : Store) : (a : KeyAction) → Decidable (a.Commits s)
  | .onePC _ _ => inferInstanceAs (Decidable (_ ∧ _))
  | .commit _ _ _ => inferInstanceAs (Decidable (_ ≤ _))
  | .resolveLock _ _ _ => inferInstanceAs (Decidable (_ ∨ _))
  | .prewrite _ _ | .prewriteAsyncCommit _ _ | .acquirePessimisticLock _ _
  | .prewritePessimistic _ _ | .pessimisticRollback _ _ _ | .rollback _ _
  | .checkTxnStatusWithCleanup _ _ _ _ | .cleanup _ _ | .cleanupModifies _ _ => isTrue trivial

instance (s : Store) (a : KeyAction) : Decidable (a.Timely s) :=
  inferInstanceAs (Decidable (_ ∧ _))

instance (s : Store) (cmd : Command) : Decidable (Timely s cmd) :=
  inferInstanceAs (Decidable (∀ a ∈ _, _))

structure RowOk (r : Row) : Prop where
  unique : ∀ q₁ ∈ r.writes.entries, ∀ q₂ ∈ r.writes.entries,
    q₁.2.startTS = q₂.2.startTS → q₁ = q₂
  locked : ∀ lock, r.lock = some lock → NoRecord r lock.startTS
  le : ∀ q ∈ r.writes.entries, q.2.startTS ≤ q.1

open KeyAction

theorem RowOk.empty : RowOk {} where
  unique := by simp
  locked := by simp
  le := by simp

theorem RowOk.noRecord {s : Store} {k : Key} {t : TimeStamp} (h : RowOk (s k))
    (hr : getTxnCommitRecord s k t = none) : NoRecord (s k) t := fun q hq hqt =>
  getTxnCommitRecord_eq_none hr hq (hqt ▸ h.le q hq) hqt

variable {k : Key} {s : Store} {t : TimeStamp} {e : Effect}

theorem RowOk.noRecord_of_lockOf {lock : Lock}
    (h : RowOk (s k)) (hl : lockOf s k t = some lock) : NoRecord (s k) t := by
  obtain ⟨hlock, rfl⟩ := lockOf_eq_some.mp hl
  exact h.locked lock hlock

/-- A lock or record of `t` appears only where `t` has no record, and with a record its lock
goes. -/
structure Fits (s : Store) (k : Key) (t : TimeStamp) (e : Effect) : Prop where
  locks : ∀ lock, e.lock = some (some lock) →
    lock.startTS = t ∧ e.record = none ∧ NoRecord (s k) t
  writes : ∀ ts w, e.record = some (ts, w) →
    w.startTS = t ∧ t ≤ ts ∧ NoRecord (s k) t ∧ (lockOf s k t ≠ none → e.lock = some none)

section
variable {s : Store} {k : Key} {t c : TimeStamp} {e : Effect}

theorem Fits.keep : Fits s k t {} := ⟨by simp, by simp⟩

theorem Fits.lock {lock : Lock} (ht : lock.startTS = t) (hn : NoRecord (s k) t) :
    Fits s k t { lock := some (some lock) } where
  locks lock' h := by
    obtain rfl := some.inj (some.inj h)
    exact ⟨ht, rfl, hn⟩
  writes := by simp

theorem Fits.mark (hn : NoRecord (s k) t) : Fits s k t (rollbackMark s k t) where
  locks lock h := by simp [rollbackMark] at h
  writes ts w h := by
    cases h
    refine ⟨rfl, le_rfl, hn, fun hl => ?_⟩
    obtain ⟨lock, hlock⟩ := ne_none_iff_exists'.mp hl
    simp [rollbackMark, hlock]

theorem Fits.lockEffect {conflict : Bool} {lock : Lock} (ht : lock.startTS = t)
    (hn : (s k).lock = none ∧ conflict = false → NoRecord (s k) t)
    (h : lockEffect s k t conflict lock = some e) : Fits s k t e := by
  rcases lockEffect_eq_some h with ⟨_, _, rfl⟩ | ⟨hl, hc, rfl⟩
  · exact .keep
  · exact .lock ht (hn ⟨hl, hc⟩)

theorem Fits.commit (hok : RowOk (s k)) (htc : t ≤ c) (h : commitEffect s k t c = some e) :
    Fits s k t e := by
  obtain ⟨lock, hl, -, hlock, hrec⟩ := commitEffect_eq_some h
  refine ⟨fun lock' h' => ?_, fun ts w hw => ?_⟩
  · rw [hlock] at h'
    cases h'
  · rw [hrec] at hw
    split at hw
    · cases hw
    · cases hw
      exact ⟨(lockOf_eq_some.mp hl).2, htc, hok.noRecord_of_lockOf hl, fun _ => hlock⟩

theorem Fits.rollback (hok : RowOk (s k)) (h : rollbackEffect s k t = some e) : Fits s k t e := by
  rcases rollbackEffect_eq_some h with ⟨_, rfl⟩ | ⟨hr, rfl⟩
  · exact .keep
  · exact .mark (hok.noRecord hr)

theorem Fits.resolve (hok : RowOk (s k)) (htc : c = 0 ∨ t ≤ c)
    (h : resolveEffect s k t c = some e) : Fits s k t e := by
  rcases resolveEffect_eq_some h with ⟨_, rfl⟩ | ⟨_, ⟨hc, h⟩ | ⟨_, h⟩⟩
  · exact .keep
  · exact .commit hok (htc.resolve_left hc.ne') h
  · exact .rollback hok h

end

variable {cmd : Command} {a : KeyAction}

theorem KeyAction.fits (hok : ∀ k, RowOk (s k))
    (ht : a.Timely s) (he : a.effect s = some e) : Fits s a.key a.startTS e := by
  -- the record of the primary is not older than the transaction
  have le_commitTS : ∀ {p t}, (checkTxnStatus s p t).commitTS ≠ 0 →
      t ≤ (checkTxnStatus s p t).commitTS := by
    intro p t hc
    obtain ⟨w, hw, hwt, -⟩ := exists_of_checkTxnStatus hc
    exact hwt ▸ (hok p).le _ hw
  cases a with
  | prewrite props m => exact .lockEffect rfl (fun h => ht.1 (decide_eq_true h)) he
  | prewriteAsyncCommit props m =>
    exact .lockEffect (asyncLock_startTS props m) (fun h => ht.1 (decide_eq_true h)) he
  | onePC props m =>
    obtain ⟨herr, rfl⟩ := onePC_eq_some he
    have hn := ht.1 (decide_eq_true herr)
    obtain ⟨hl, hle⟩ := ht.2
    refine ⟨by simp, fun ts w hw => ?_⟩
    cases hw
    exact ⟨rfl, hle, hn, fun h => absurd hl h⟩
  | acquirePessimisticLock props k =>
    obtain ⟨lock, hl, hlt, rfl | rfl⟩ | ⟨hl, hc, rfl⟩ := acquirePessimisticLock_eq_some he
    · exact .lock hlt ((hok k).noRecord_of_lockOf (lockOf_eq_some.mpr ⟨hl, hlt⟩))
    · exact .keep
    · exact .lock rfl (ht.1 (decide_eq_true ⟨hl, hc⟩))
  | prewritePessimistic props m =>
    obtain ⟨lock, hl, hlt, rfl | rfl⟩ | ⟨hl, hc, rfl⟩ := prewritePessimistic_eq_some he
    · exact .lock rfl ((hok m.key).noRecord_of_lockOf (lockOf_eq_some.mpr ⟨hl, hlt⟩))
    · exact .keep
    · exact .lock rfl (ht.1 (decide_eq_true ⟨hl, hc⟩))
  | pessimisticRollback k t fu =>
    obtain ⟨-, rfl⟩ | rfl := pessimisticRollback_eq_some he
    · exact ⟨by simp, by simp⟩
    · exact .keep
  | commit k t c => exact .commit (hok k) ht.2 he
  | rollback k t => exact .rollback (hok k) he
  | resolveLock k t c => exact .resolve (hok k) ht.2 he
  | checkTxnStatusWithCleanup k t caller rb =>
    obtain rfl | ⟨rfl, ⟨lock, hl⟩ | hr⟩ := checkTxnStatusWithCleanup_eq_some he
    · exact .keep
    · exact .mark ((hok k).noRecord_of_lockOf hl)
    · exact .mark ((hok k).noRecord hr)
  | cleanup k t =>
    obtain ⟨-, rfl⟩ | ⟨lock, hl, ⟨hc, he⟩ | ⟨-, he⟩⟩ := cleanup_eq_some he
    · exact .keep
    · exact .resolve (hok k) (.inr (le_commitTS hc)) he
    · exact .rollback (hok k) he
  | cleanupModifies k t =>
    obtain ⟨-, rfl⟩ | ⟨lock, hl, ⟨hc, he⟩ | ⟨-, rfl⟩⟩ := cleanupModifies_eq_some he
    · exact .keep
    · exact .resolve (hok k) (.inr (le_commitTS hc)) he
    · exact .mark ((hok k).noRecord_of_lockOf hl)

def Effect.Advances (e : Effect) : Prop :=
  (∃ lock, e.lock = some (some lock)) ∨
    ∃ ts w, e.record = some (ts, w) ∧ w.writeType ≠ .rollback

open Effect

theorem not_advances_keep : ¬Effect.Advances {} := by simp [Advances]

theorem not_advances_mark :
    ¬(rollbackMark s k t).Advances := by
  simp [Advances, rollbackMark, rollbackWrite]

theorem held_of_resolveEffect {c : TimeStamp}
    (he : resolveEffect s k t c = some e) (hadv : e.Advances) : lockOf s k t ≠ none := by
  rcases resolveEffect_eq_some he with ⟨-, rfl⟩ | ⟨hl, -⟩
  · exact absurd hadv not_advances_keep
  · exact isSome_iff_ne_none.mp hl

theorem not_advances_rollbackEffect (he : rollbackEffect s k t = some e) : ¬e.Advances := by
  rcases rollbackEffect_eq_some he with ⟨-, rfl⟩ | ⟨-, rfl⟩
  · exact not_advances_keep
  · exact not_advances_mark

theorem KeyAction.begins_or_held (he : a.effect s = some e) (hadv : e.Advances) :
    a.begins s ∨ lockOf s a.key a.startTS ≠ none := by
  have hheld : ∀ {k t lock}, lockOf s k t = some lock → lockOf s k t ≠ none := by
    intro k t lock hl
    rw [hl]
    exact some_ne_none lock
  have hlock : ∀ {k t conflict lock}, lockEffect s k t conflict lock = some e →
      ((s k).lock = none ∧ conflict = false) ∨ lockOf s k t ≠ none := by
    intro k t conflict lock h
    rcases lockEffect_eq_some h with ⟨existing, hl, -⟩ | ⟨hl, hc, -⟩
    · exact .inr (by simp [hl])
    · exact .inl ⟨hl, hc⟩
  cases a with
  | prewrite props m | prewriteAsyncCommit props m => exact (hlock he).imp_left decide_eq_true
  | onePC props m => exact .inl (decide_eq_true (onePC_eq_some he).1)
  | acquirePessimisticLock props k =>
    obtain ⟨lock, hl, hlt, -⟩ | ⟨hl, hc, -⟩ := acquirePessimisticLock_eq_some he
    · exact .inr (hheld (lockOf_eq_some.mpr ⟨hl, hlt⟩))
    · exact .inl (decide_eq_true ⟨hl, hc⟩)
  | prewritePessimistic props m =>
    obtain ⟨lock, hl, hlt, -⟩ | ⟨hl, hc, -⟩ := prewritePessimistic_eq_some he
    · exact .inr (hheld (lockOf_eq_some.mpr ⟨hl, hlt⟩))
    · exact .inl (decide_eq_true ⟨hl, hc⟩)
  | pessimisticRollback k t fu =>
    obtain ⟨hl, -⟩ | rfl := pessimisticRollback_eq_some he
    · exact .inr hl
    · exact absurd hadv not_advances_keep
  | commit k t c =>
    obtain ⟨lock, hl, -⟩ := commitEffect_eq_some he
    exact .inr (hheld hl)
  | rollback k t => exact absurd hadv (not_advances_rollbackEffect he)
  | resolveLock k t c => exact .inr (held_of_resolveEffect he hadv)
  | checkTxnStatusWithCleanup k t caller rb =>
    obtain rfl | ⟨rfl, -⟩ := checkTxnStatusWithCleanup_eq_some he
    · exact absurd hadv not_advances_keep
    · exact absurd hadv not_advances_mark
  | cleanup k t =>
    obtain ⟨-, rfl⟩ | ⟨lock, hl, -⟩ := cleanup_eq_some he
    · exact absurd hadv not_advances_keep
    · exact .inr (hheld hl)
  | cleanupModifies k t =>
    obtain ⟨-, rfl⟩ | ⟨lock, hl, -⟩ := cleanupModifies_eq_some he
    · exact absurd hadv not_advances_keep
    · exact .inr (hheld hl)

theorem RowOk.run (hok : ∀ k, RowOk (s k)) (ht : Timely s cmd) (k : Key) : RowOk (run s cmd k) := by
  by_cases hacc : Accepted s cmd
  swap
  · rw [run_refused hacc]
    exact hok k
  -- a record the command wrote is the first one of its transaction
  have hnew : ∀ {a e q}, a ∈ cmd.actions → a.key = k → a.effect s = some e →
      e.record = some q → q.2.startTS ≤ q.1 ∧ NoRecord (s k) q.2.startTS ∧
        q.1 = cmd.recordTS s ∧ cmd.isLocking = false ∧
        (lockOf s k q.2.startTS ≠ none → e.lock = some none) := by
    intro a e q ha hk he hrec
    obtain ⟨hst, hle, hn, hlock⟩ := (a.fits hok (ht a ha) he).writes q.1 q.2 hrec
    rw [hk, ← hst] at hn hlock
    have hcmd : cmd.isLocking = false := by
      by_contra hcmd
      rw [Bool.not_eq_false, ← Command.isLocking_of_mem ha] at hcmd
      rw [a.record_eq_none hcmd he] at hrec
      cases hrec
    exact ⟨hst ▸ hle, hn, (concludes hcmd ha he).record q.1 q.2 hrec, hcmd, hlock⟩
  constructor
  · intro q₁ h₁ q₂ h₂ heq
    rcases mem_run hacc h₁ with ho₁ | ⟨a₁, ha₁, hk₁, e₁, he₁, hr₁⟩
    · rcases mem_run hacc h₂ with ho₂ | ⟨a₂, ha₂, hk₂, e₂, he₂, hr₂⟩
      · exact (hok k).unique q₁ ho₁ q₂ ho₂ heq
      · exact absurd heq ((hnew ha₂ hk₂ he₂ hr₂).2.1 q₁ ho₁)
    · rcases mem_run hacc h₂ with ho₂ | ⟨a₂, ha₂, hk₂, e₂, he₂, hr₂⟩
      · exact absurd heq.symm ((hnew ha₁ hk₁ he₁ hr₁).2.1 q₂ ho₂)
      · -- two new records are at the same timestamp
        have hts : q₁.1 = q₂.1 :=
          (hnew ha₁ hk₁ he₁ hr₁).2.2.1.trans (hnew ha₂ hk₂ he₂ hr₂).2.2.1.symm
        have hw : q₁.2 = q₂.2 := Versions.eq_of_mem h₁ (hts ▸ h₂)
        exact Prod.ext hts hw
  · intro lock hl q hq hst
    rcases lock_run hacc hl with ⟨hold, huntouched⟩ | ⟨a, ha, hk, e, he, hlock⟩
    · rcases mem_run hacc hq with ho | ⟨a, ha, hk, e, he, hrec⟩
      · exact (hok k).locked lock hold q ho hst
      · -- the record of the holder takes the place of the lock
        have hheld : lockOf s k q.2.startTS ≠ none := by
          rw [lockOf_eq_some.mpr ⟨hold, hst.symm⟩]
          simp
        have hgone := (hnew ha hk he hrec).2.2.2.2 hheld
        rw [huntouched a ha hk e he] at hgone
        cases hgone
    · obtain ⟨hlt, -, hn⟩ := (a.fits hok (ht a ha) he).locks lock hlock
      rcases mem_run hacc hq with ho | ⟨b, hb, hkb, e', he', hrec⟩
      · exact hn q (hk ▸ ho) (hst.trans hlt)
      · have hcmd := (hnew hb hkb he' hrec).2.2.2.1
        exact (concludes hcmd ha he).lock lock hlock
  · intro q hq
    rcases mem_run hacc hq with ho | ⟨a, ha, hk, e, he, hrec⟩
    · exact (hok k).le q ho
    · exact (hnew ha hk he hrec).1

theorem rowOk_of_timely (h : system.ReachableWhen Timely s) (k : Key) :
    RowOk (s k) := by
  refine h.invariant (P := fun s => ∀ k, RowOk (s k)) (fun _ => RowOk.empty) ?_ k
  intro s s' cmd hok ht hs
  cases hs
  exact RowOk.run hok ht

/-- **Rollback is final**, as long as no command comes late. -/
theorem rollbackFinal_of_timely {s : Store} (h : system.ReachableWhen Timely s) :
    RollbackFinal s := by
  intro k t
  have hok := rowOk_of_timely h k
  refine ⟨fun q₁ h₁ q₂ h₂ ht₁ ht₂ => hok.unique q₁ h₁ q₂ h₂ (ht₁.trans ht₂.symm), ?_⟩
  intro q hq hqt _
  rw [lockOf_eq_none]
  intro lock hl hlt
  exact hok.locked lock hl q hq (hqt.trans hlt.symm)

def onePut : Mutation := { op := .put, key := [1], value := some [7] }

def timelyRun : List Command :=
  [.prewrite [onePut] [1] 5 100, .commit [[1]] 5 6, .prewrite [onePut] [1] 8 100,
    .checkTxnStatusWithCleanup [1] 8 tsMax true, .batchRollback [[1]] 8]

theorem rollbackFinal_timelyRun : ∃ s, system.ReachableWhen Timely s ∧
    (s [1]).writes.entries.map (fun q => (q.1, q.2.writeType)) = [(8, .rollback), (6, .put)] ∧
    RollbackFinal s := by
  obtain ⟨s, hs, he⟩ : ∃ s, system.runWhen Timely Store.empty timelyRun = some s ∧
      (s [1]).writes.entries.map (fun q => (q.1, q.2.writeType)) =
        [(8, .rollback), (6, .put)] := ⟨_, rfl, rfl⟩
  have hr := reachableWhen_of_run .start hs
  exact ⟨s, hr, he, rollbackFinal_of_timely hr⟩

def latePrewrite : List Command := [.batchRollback [[1]] 5, .prewrite [onePut] [1] 5 100]

theorem late_prewrite_reachable : ∃ s, system.Reachable s ∧ ¬RollbackFinal s := by
  obtain ⟨s, hs, hq, hl⟩ : ∃ s, system.runFrom Store.empty latePrewrite = some s ∧
      (5, rollbackWrite 5) ∈ (s [1]).writes.entries ∧ lockOf s [1] 5 ≠ none :=
    ⟨_, rfl, by decide, by decide⟩
  refine ⟨s, reachable_of_run .start hs, fun h => hl ?_⟩
  exact (h [1] 5).2 _ hq rfl rfl

/-! ### Committed data stays -/

def KeepsData (s s' : Store) : Prop :=
  ∀ k, ∀ q ∈ (s k).writes.entries, q.2.isDataChanged → q ∈ (s' k).writes.entries

def Vacant (r : Row) (ts : TimeStamp) (w : Write) : Prop :=
  ∀ w', (ts, w') ∈ r.writes.entries → w'.isDataChanged → w' = w

def NoData (r : Row) (ts : TimeStamp) : Prop :=
  ∀ w', (ts, w') ∈ r.writes.entries → ¬w'.isDataChanged

def CanCommit (s : Store) (k : Key) (t c : TimeStamp) : Prop :=
  ∃ lock, lockOf s k t = some lock ∧ lock.minCommitTS ≤ c

def CanRollback (s : Store) (k : Key) (t : TimeStamp) : Prop :=
  ∀ q, getTxnCommitRecord s k t = some q → q.2.writeType = .rollback

def CommitFree (s : Store) (k : Key) (t c : TimeStamp) : Prop :=
  ∀ lock, lockOf s k t = some lock → lock.lockType ≠ .pessimistic →
    Vacant (s k) c (commitWrite lock).reload

def RollbackFree (s : Store) (k : Key) (t : TimeStamp) : Prop :=
  getTxnCommitRecord s k t = none → NoData (s k) t

def Free (s : Store) : Command → Prop
  | .commit keys t c =>
    (∀ k ∈ keys, CanCommit s k t c) → ∀ k ∈ keys, CommitFree s k t c
  | .batchRollback keys t =>
    (∀ k ∈ keys, CanRollback s k t) → ∀ k ∈ keys, RollbackFree s k t
  | .resolveLock t c keys =>
    if 0 < c then
      (∀ k ∈ keys, (lockOf s k t).isSome → CanCommit s k t c) → ∀ k ∈ keys, CommitFree s k t c
    else
      (∀ k ∈ keys, (lockOf s k t).isSome → CanRollback s k t) →
        ∀ k ∈ keys, (lockOf s k t).isSome → RollbackFree s k t
  | .checkTxnStatusWithCleanup k t caller rb =>
    match lockOf s k t with
    | some lock => lockExpired lock t caller → NoData (s k) t
    | none => rb → RollbackFree s k t
  | .cleanup k t =>
    ∀ lock, lockOf s k t = some lock →
      let c := (checkTxnStatus s lock.primary t).commitTS
      if c ≠ 0 then CanCommit s k t c → CommitFree s k t c else RollbackFree s k t
  | .cleanupModifies k t =>
    ∀ lock, lockOf s k t = some lock →
      let c := (checkTxnStatus s lock.primary t).commitTS
      if c ≠ 0 then CanCommit s k t c → CommitFree s k t c else NoData (s k) t
  | .prewrite1PC ms p t c ttl =>
    let props : OnePCProps := { startTS := t, commitTS := c, primary := p, lockTTL := ttl }
    (∀ m ∈ ms, onePCError s props m = none) →
      ∀ k, ∀ m ∈ (ms.filter fun m => m.key = k).getLast?,
        Vacant (s k) c (props.write m).reload
  | _ => True

def Effect.Free (r : Row) (e : Effect) : Prop :=
  ∀ ts w, e.record = some (ts, w) → Vacant r ts w

theorem noData_iff_vacant {r : Row} :
    NoData r t ↔ Vacant r t (rollbackWrite t).reload := by
  constructor
  · intro h w' hw' hd
    exact absurd hd (h w' hw')
  · intro h w' hw' hd
    rw [h w' hw' hd] at hd
    exact absurd hd (by simp [Write.isDataChanged, rollbackWrite])

theorem keepsData_run_iff : KeepsData s (run s cmd) ↔
    (Accepted s cmd → ∀ k, ∀ q ∈ (s k).writes.entries, q.2.isDataChanged →
      ∀ w, LastWrite (KeyAction.recordOn s k q.1) cmd.actions = some w → some q.2 = w) := by
  by_cases hacc : Accepted s cmd
  swap
  · rw [run_refused hacc]
    exact ⟨fun _ h => absurd h hacc, fun _ k q hq _ => hq⟩
  simp only [hacc, forall_const, KeepsData]
  refine forall_congr' fun k => forall₂_congr fun q hq => forall_congr' fun hd => ?_
  rw [show q = (q.1, q.2) from rfl, ← Versions.get_eq_some_iff, run_get hacc,
    Versions.get_eq_some_iff.mpr hq]
  cases hlast : LastWrite (recordOn s k q.1) cmd.actions with
  | none => simp
  | some w =>
    rw [getD_some]
    constructor
    · rintro rfl _ h
      exact some.inj h
    · intro h
      exact (h w rfl).symm

theorem keepsData_map (keys : List Key) {f : Key → KeyAction}
    (hf : ∀ k, (f k).key = k) (hcmd : cmd.actions = keys.map f) :
    KeepsData s (run s cmd) ↔ ((∀ k ∈ keys, ((f k).effect s).isSome) →
      ∀ k ∈ keys, ∀ e, (f k).effect s = some e → e.Free (s k)) := by
  have hacc : Accepted s cmd ↔ ∀ k ∈ keys, ((f k).effect s).isSome := by
    simp [Accepted, hcmd]
  rw [keepsData_run_iff, hacc, hcmd]
  refine forall_congr' fun _ => ⟨fun h k hk e he ts w hw w' hw' hd => ?_, fun h => ?_⟩
  · -- the action on the key decides, also when the key is named again
    have hon : (f k).recordOn s k ts = some (some w) :=
      recordOn_eq_some.mpr ⟨hf k, e, w, he, hw, rfl⟩
    cases hlast : LastWrite (recordOn s k ts) (keys.map f) with
    | none =>
      have := eq_none_iff.mp hlast _ (mem_map_of_mem hk)
      exact absurd (hon.symm.trans this) (by simp)
    | some x =>
      obtain ⟨a, ha, hx⟩ := exists_of_eq_some hlast
      obtain ⟨k', -, rfl⟩ := mem_map.mp ha
      obtain rfl : k' = k := (hf k').symm.trans (recordOn_eq_some.mp hx).1
      rw [hon] at hx
      have heq := h k' (ts, w') hw' hd x hlast
      exact some.inj (heq.trans (some.inj hx).symm)
  · intro k q hq hd x hlast
    obtain ⟨a, ha, hx⟩ := exists_of_eq_some hlast
    obtain ⟨k', hk', rfl⟩ := mem_map.mp ha
    obtain ⟨hk, e, w, he, hw, rfl⟩ := recordOn_eq_some.mp hx
    obtain rfl : k' = k := (hf k').symm.trans hk
    rw [h k' hk' e he q.1 w hw q.2 hq hd]

theorem keepsData_of_no_record (h : ∀ a ∈ cmd.actions, ∀ e, a.effect s = some e → e.record = none) :
    KeepsData s (run s cmd) := by
  rw [keepsData_run_iff]
  intro _ k q _ _ x hlast
  obtain ⟨a, ha, hx⟩ := exists_of_eq_some hlast
  obtain ⟨-, e, w, he, hw, -⟩ := recordOn_eq_some.mp hx
  rw [h a ha e he] at hw
  cases hw

section
variable {s : Store} {k : Key} {t c : TimeStamp}

theorem commitEffect_isSome : (commitEffect s k t c).isSome ↔ CanCommit s k t c := by
  unfold commitEffect CanCommit
  cases hl : lockOf s k t with
  | none => simp
  | some lock =>
    by_cases hc : c < lock.minCommitTS
    · simp [hc]
    · by_cases hp : lock.lockType = .pessimistic <;> simp [hc, hp, not_lt.mp hc]

theorem rollbackEffect_isSome : (rollbackEffect s k t).isSome ↔ CanRollback s k t := by
  unfold rollbackEffect CanRollback
  cases hr : getTxnCommitRecord s k t with
  | none => simp
  | some q => by_cases hw : q.2.writeType = .rollback <;> simp [hw]

theorem commitEffect_free (h : CanCommit s k t c) :
    (∀ e, commitEffect s k t c = some e → e.Free (s k)) ↔ CommitFree s k t c := by
  constructor
  · intro hfree lock hl hp
    obtain ⟨e, he⟩ := isSome_iff_exists.mp (commitEffect_isSome.mpr h)
    obtain ⟨lock', hl', -, -, hrec⟩ := commitEffect_eq_some he
    obtain rfl : lock' = lock := some.inj (hl'.symm.trans hl)
    rw [if_neg hp] at hrec
    exact hfree e he c _ hrec
  · intro hfree e he ts w hw
    obtain ⟨lock, hl, -, -, hrec⟩ := commitEffect_eq_some he
    rw [hrec] at hw
    split at hw
    · cases hw
    · rename_i hp
      cases hw
      exact hfree lock hl hp

theorem rollbackMark_free : (rollbackMark s k t).Free (s k) ↔ NoData (s k) t := by
  rw [noData_iff_vacant]
  constructor
  · intro h
    exact h t _ rfl
  · intro h ts w hw
    cases hw
    exact h

theorem Effect.free_keep : Effect.Free (s k) {} := fun _ _ h => absurd h (by simp)

theorem rollbackEffect_free :
    (∀ e, rollbackEffect s k t = some e → e.Free (s k)) ↔ RollbackFree s k t := by
  constructor
  · intro hfree hr
    rw [← rollbackMark_free]
    exact hfree _ (by simp [rollbackEffect, hr])
  · intro hfree e he
    rcases rollbackEffect_eq_some he with ⟨-, rfl⟩ | ⟨hr, rfl⟩
    · exact free_keep
    · exact rollbackMark_free.mpr (hfree hr)

theorem resolveEffect_isSome : (resolveEffect s k t c).isSome ↔
    ((lockOf s k t).isSome → if 0 < c then CanCommit s k t c else CanRollback s k t) := by
  unfold resolveEffect
  cases hl : lockOf s k t with
  | none => simp
  | some lock => by_cases hc : 0 < c <;> simp [hc, commitEffect_isSome, rollbackEffect_isSome]

theorem resolveEffect_free (h : (resolveEffect s k t c).isSome) :
    (∀ e, resolveEffect s k t c = some e → e.Free (s k)) ↔
      ((lockOf s k t).isSome → if 0 < c then CommitFree s k t c else RollbackFree s k t) := by
  have hcan := resolveEffect_isSome.mp h
  unfold resolveEffect
  cases hl : lockOf s k t with
  | none => simp [free_keep]
  | some lock =>
    by_cases hc : 0 < c
    · have hcc : CanCommit s k t c := by simpa [hl, hc] using hcan
      simpa [hc] using commitEffect_free hcc
    · simpa [hc] using rollbackEffect_free

theorem resolve_keepsData (hl : (lockOf s k t).isSome) (hc : c ≠ 0) :
    ((resolveEffect s k t c).isSome → ∀ e, resolveEffect s k t c = some e → e.Free (s k)) ↔
      (CanCommit s k t c → CommitFree s k t c) := by
  have hpos : 0 < c := by grind
  have hsome : (resolveEffect s k t c).isSome ↔ CanCommit s k t c := by
    simp [resolveEffect_isSome, hl, hpos]
  rw [← hsome]
  refine forall_congr' fun h => (resolveEffect_free h).trans ?_
  simp [hl, hpos]

theorem commitFree_iff : ((lockOf s k t).isSome → CommitFree s k t c) ↔ CommitFree s k t c := by
  refine ⟨fun h lock hl => h (by simp [hl]) lock hl, fun h _ => h⟩

end

theorem keepsData_prewrite1PC {ms : List Mutation} {p : Key} {c : TimeStamp} {ttl : UInt64} :
    KeepsData s (run s (.prewrite1PC ms p t c ttl)) ↔ Free s (.prewrite1PC ms p t c ttl) := by
  set props : OnePCProps := { startTS := t, commitTS := c, primary := p, lockTTL := ttl }
  have heff : ∀ m, onePCError s props m = none → (KeyAction.onePC props m).effect s =
      some { record := some (c, (props.write m).reload) } := by
    intro m hm
    simp [KeyAction.effect, hm, props]
  have hacc : Accepted s (.prewrite1PC ms p t c ttl) ↔ ∀ m ∈ ms, onePCError s props m = none := by
    simp only [Accepted, Command.actions, List.forall_mem_map]
    refine forall₂_congr fun m _ => ?_
    cases hm : onePCError s props m <;> simp [KeyAction.effect, props, hm]
  rw [keepsData_run_iff, hacc]
  refine forall_congr' fun hpass => ?_
  -- the actions that write at the commit timestamp on a key are those on its mutations
  have hlast : ∀ k ts, LastWrite (KeyAction.recordOn s k ts) (ms.map (.onePC props)) =
      if c = ts then (ms.filter fun m => m.key = k).getLast?.map
        fun m => some (props.write m).reload
      else none := by
    intro k ts
    rw [LastWrite.map, LastWrite.congr (g := fun m => if m.key = k ∧ c = ts then
      some (some (props.write m).reload) else none)]
    · by_cases hc : c = ts
      · simp only [hc, and_true, if_true]
        exact LastWrite.ite _ _ _
      · rw [if_neg hc, LastWrite.eq_none_iff]
        simp [hc]
    · intro m hm
      by_cases hk : m.key = k <;>
        simp [KeyAction.recordOn, KeyAction.key, heff m (hpass m hm), Effect.recordAt, hk]
  have hactions : Command.actions (.prewrite1PC ms p t c ttl) = ms.map (.onePC props) := rfl
  simp only [hactions, hlast]
  constructor
  · intro h k m hm w' hw' hd
    have := h k (c, w') hw' hd (some (props.write m).reload)
      (by rw [if_pos rfl, Option.mem_def.mp hm]; rfl)
    exact Option.some.inj this
  · intro h k q hq hd w hw
    obtain ⟨hc, hw⟩ := Option.ite_none_right_eq_some.mp hw
    obtain ⟨m, hm, rfl⟩ := Option.map_eq_some_iff.mp hw
    rw [h k m hm q.2 (hc ▸ hq) hd]

theorem keepsData_pessimisticRollback (keys : List Key) (t fu : TimeStamp) :
    KeepsData s (run s (.pessimisticRollback keys t fu)) := by
  refine keepsData_of_no_record fun a ha e he => ?_
  obtain ⟨k, -, rfl⟩ := mem_map.mp ha
  obtain ⟨-, rfl⟩ | rfl := pessimisticRollback_eq_some he <;> rfl

theorem keepsData_resolveLock {c : TimeStamp} {keys : List Key} :
    KeepsData s (run s (.resolveLock t c keys)) ↔ Free s (.resolveLock t c keys) := by
  rw [keepsData_map keys (f := (.resolveLock · t c)) (fun _ => rfl) rfl]
  have hfree : ((∀ k ∈ keys, (resolveEffect s k t c).isSome) →
      ∀ k ∈ keys, ∀ e, resolveEffect s k t c = some e → e.Free (s k)) ↔
      ((∀ k ∈ keys, (resolveEffect s k t c).isSome) → ∀ k ∈ keys, (lockOf s k t).isSome →
        if 0 < c then CommitFree s k t c else RollbackFree s k t) :=
    forall_congr' fun h => forall₂_congr fun k hk => resolveEffect_free (h k hk)
  refine hfree.trans ?_
  simp only [resolveEffect_isSome, Free]
  by_cases hc : 0 < c
  · simp only [hc, if_true, commitFree_iff]
  · simp only [hc, if_false]

theorem keepsData_checkTxnStatus {caller : TimeStamp} {rb : Bool} :
    KeepsData s (run s (.checkTxnStatusWithCleanup k t caller rb)) ↔
      Free s (.checkTxnStatusWithCleanup k t caller rb) := by
  rw [keepsData_map [k] (f := (.checkTxnStatusWithCleanup · t caller rb)) (fun _ => rfl) rfl]
  simp only [forall_mem_singleton, effect, Free]
  cases hl : lockOf s k t with
  | some lock =>
    by_cases hexp : lockExpired lock t caller <;>
      simp [hexp, rollbackMark_free, free_keep]
  | none =>
    by_cases hrb : rb <;> by_cases hr : getTxnCommitRecord s k t = none <;>
      simp [hrb, hr, rollbackMark_free, free_keep, RollbackFree]

theorem keepsData_cleanup :
    KeepsData s (run s (.cleanup k t)) ↔ Free s (.cleanup k t) := by
  rw [keepsData_map [k] (f := (.cleanup · t)) (fun _ => rfl) rfl]
  simp only [forall_mem_singleton, effect, Free]
  cases hl : lockOf s k t with
  | none => simp [free_keep]
  | some lock =>
    simp only [some_inj, forall_eq']
    by_cases hc : (checkTxnStatus s lock.primary t).commitTS = 0
    · simp only [hc, ne_eq, not_true_eq_false, if_false, rollbackEffect_free]
      refine ⟨fun h hr => h ?_ hr, fun h _ => h⟩
      simp [rollbackEffect, hr]
    · simp only [hc, ne_eq, not_false_eq_true, if_true]
      exact resolve_keepsData (by simp [hl]) hc

theorem keepsData_cleanupModifies :
    KeepsData s (run s (.cleanupModifies k t)) ↔ Free s (.cleanupModifies k t) := by
  rw [keepsData_map [k] (f := (.cleanupModifies · t)) (fun _ => rfl) rfl]
  simp only [forall_mem_singleton, effect, Free]
  cases hl : lockOf s k t with
  | none => simp [free_keep]
  | some lock =>
    simp only [some_inj, forall_eq']
    by_cases hc : (checkTxnStatus s lock.primary t).commitTS = 0
    · simp [hc, rollbackMark_free]
    · simp only [hc, ne_eq, not_false_eq_true, if_true]
      exact resolve_keepsData (by simp [hl]) hc

/-- **A command keeps all committed data exactly when the places of its records are
free.** -/
theorem keepsData_iff_free (s : Store) (cmd : Command) : KeepsData s (run s cmd) ↔ Free s cmd := by
  have hlocking : cmd.isLocking = true → KeepsData s (run s cmd) := fun h =>
    keepsData_of_no_record fun a ha e he =>
      a.record_eq_none ((Command.isLocking_of_mem ha).trans h) he
  cases cmd with
  | prewrite ms p t ttl | prewriteAsyncCommit ms p t ttl secs maxTS
  | pessimisticLock keys p t fu ttl | prewritePessimistic props m =>
    exact iff_of_true (hlocking rfl) trivial
  | prewrite1PC ms p t c ttl => exact keepsData_prewrite1PC
  | pessimisticRollback keys t fu =>
    exact iff_of_true (keepsData_pessimisticRollback keys t fu) trivial
  | commit keys t c =>
    rw [keepsData_map keys (f := (.commit · t c)) (fun _ => rfl) rfl]
    simp only [effect, commitEffect_isSome]
    exact forall_congr' fun h => forall₂_congr fun k hk => commitEffect_free (h k hk)
  | batchRollback keys t =>
    rw [keepsData_map keys (f := (.rollback · t)) (fun _ => rfl) rfl]
    simp only [effect, rollbackEffect_isSome]
    exact forall_congr' fun _ => forall₂_congr fun k _ => rollbackEffect_free
  | resolveLock t c keys => exact keepsData_resolveLock
  | checkTxnStatusWithCleanup k t caller rb => exact keepsData_checkTxnStatus
  | cleanup k t => exact keepsData_cleanup
  | cleanupModifies k t => exact keepsData_cleanupModifies

def overwritingRun : List Command := [.prewrite [onePut] [1] 5 100, .commit [[1]] 5 10]

theorem rollback_overwrites_reachable : ∃ s, system.Reachable s ∧
    ¬KeepsData s (run s (.batchRollback [[1]] 10)) := by
  obtain ⟨s, hs, hq, hr⟩ : ∃ s, system.runFrom Store.empty overwritingRun = some s ∧
      (10, { writeType := .put, startTS := 5, shortValue := some [7] }) ∈
        (s [1]).writes.entries ∧
      (10, { writeType := .put, startTS := 5, shortValue := some [7] }) ∉
        (run s (.batchRollback [[1]] 10) [1]).writes.entries :=
    ⟨_, rfl, by decide, by decide⟩
  exact ⟨s, reachable_of_run .start hs, fun h => hr (h [1] _ hq rfl)⟩

end Storage
