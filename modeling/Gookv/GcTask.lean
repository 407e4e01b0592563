/-
A garbage collection task over a range of keys, and the outcome of transactions
(`GCWorker.processTask`, `KvGC`).
-/
import Gookv.Gc
import Gookv.TxnRuns

open Txntypes Mvcc Txn

namespace Gc

structure GCTask where
  safePoint : TimeStamp
  startKey : Key := []
  endKey : Key := []

/-- The version lies between the bounds of the iterator; the upper is version `0` of the end key. -/
def GCTask.Covers (task : GCTask) (key : Key) (commitTS : TimeStamp) : Prop :=
  (task.startKey = [] ∨ task.startKey ≤ key) ∧
    (task.endKey = [] ∨ key < task.endKey ∨ key = task.endKey ∧ commitTS ≠ 0)

instance (task : GCTask) (key : Key) (commitTS : TimeStamp) :
    Decidable (task.Covers key commitTS) :=
  inferInstanceAs (Decidable (_ ∧ _))

structure TaskState where
  engine : Store
  modifies : List Modify := []
  lastUserKey : Key := []

def TaskState.store (st : TaskState) : Store := applyModifies st.engine st.modifies

/-- The loop over the user keys; `full` tells when a batch is applied. None when it never ends. -/
def processKeys (snap : Store) (safePoint : TimeStamp) (full : List Modify → Bool) :
    List Key → TaskState → Option Store
  | [], st => some (applyModifies st.engine st.modifies)
  | userKey :: rest, st =>
    if userKey = st.lastUserKey then processKeys snap safePoint full rest st
    else
      match gc snap userKey safePoint with
      | none => none
      | some (_, ms) =>
        let modifies := st.modifies ++ ms
        if full modifies then
          processKeys snap safePoint full rest
            { engine := applyModifies st.engine modifies, lastUserKey := userKey }
        else
          processKeys snap safePoint full rest
            { st with modifies := modifies, lastUserKey := userKey }

def processTask (s : Store) (task : GCTask) (full : List Modify → Bool)
    (userKeys : List Key) : Option Store :=
  processKeys s task.safePoint full userKeys { engine := s }

structure Iterates (s : Store) (task : GCTask) (userKeys : List Key) : Prop where
  sorted : userKeys.Pairwise (· ≤ ·)
  mem : ∀ k, k ∈ userKeys ↔ ∃ q ∈ (s k).writes.entries, task.Covers k q.1

section
variable {snap s s' : Store} {sp : TimeStamp} {full : List Modify → Bool} {userKeys : List Key}

theorem applyModifies_ops {k : Key} (sp : TimeStamp) (h : s k = snap k) (k' : Key) :
    applyModifies s (gcOps k ((snap k).writes.upTo sp)) k' =
      if k' = k then collected snap k sp k else s k' := by
  by_cases hk : k' = k
  · rw [if_pos hk, hk, collected, applyModifies_of_forall_eq fun x => key_of_mem_ops,
      applyModifies_of_forall_eq fun x => key_of_mem_ops, h]
  · rw [if_neg hk]
    exact applyModifies_of_forall_ne fun x hx hxk => hk (hxk.symm.trans (key_of_mem_ops hx))

theorem processKeys_cons {u : Key} {rest : List Key} {st : TaskState}
    (hu : u ≠ st.lastUserKey) (h : processKeys snap sp full (u :: rest) st = some s') :
    (∀ q ∈ (snap u).writes.entries, q.1 ≠ 0) ∧
      ∃ st', processKeys snap sp full rest st' = some s' ∧ st'.lastUserKey = u ∧
        st'.store = applyModifies st.store (gcOps u ((snap u).writes.upTo sp)) := by
  rw [processKeys, if_neg hu] at h
  cases hgc : gc snap u sp with
  | none =>
    rw [hgc] at h
    exact absurd h (by simp)
  | some r =>
    obtain ⟨info, ms⟩ := r
    obtain ⟨hpos, rfl⟩ := gc_eq_some_iff.mp ⟨info, hgc⟩
    refine ⟨hpos, ?_⟩
    rw [hgc] at h
    dsimp only at h
    have happ : ∀ ms, applyModifies st.engine (st.modifies ++ ms) = applyModifies st.store ms :=
      fun ms => List.foldl_append
    by_cases hf : full (st.modifies ++ gcOps u ((snap u).writes.upTo sp))
    · rw [if_pos hf] at h
      exact ⟨_, h, rfl, happ _⟩
    · rw [if_neg hf] at h
      exact ⟨_, h, rfl, happ _⟩

theorem processKeys_row : ∀ {st : TaskState},
    processKeys snap sp full userKeys st = some s' → userKeys.Pairwise (· ≤ ·) →
    (∀ k ∈ userKeys, st.lastUserKey ≤ k) → (∀ k, st.lastUserKey < k → st.store k = snap k) →
    ∀ k, s' k = if k ∈ userKeys ∧ k ≠ st.lastUserKey then collected snap k sp k
      else st.store k := by
  induction userKeys with
  | nil =>
    intro st h _ _ _ k
    rw [processKeys, Option.some_inj] at h
    rw [if_neg (by simp), ← h]
    rfl
  | cons u rest ih =>
    intro st h hsorted hlast hrow k
    obtain ⟨hu, hsorted'⟩ := List.pairwise_cons.mp hsorted
    by_cases hul : u = st.lastUserKey
    · rw [processKeys, if_pos hul] at h
      rw [ih h hsorted' (fun k' hk' => hlast k' (by simp [hk'])) hrow k]
      refine if_congr (and_congr_left fun hk => ?_) rfl rfl
      simp [hul, hk]
    · have hlt : st.lastUserKey < u := lt_of_le_of_ne (hlast u (by simp)) (Ne.symm hul)
      obtain ⟨-, st', h', hlast', hst'⟩ := processKeys_cons hul h
      have hstore := applyModifies_ops sp (hrow u hlt)
      rw [← hst'] at hstore
      have hrec := ih h' hsorted' (by rwa [hlast']) (fun k' hk' => ?_) k
      · rw [hrec, hstore, hlast']
        by_cases hku : k = u
        · simp [hku, hul]
        · have hne : k ∈ rest → k ≠ st.lastUserKey := fun hk =>
            (hlt.trans_le (hu k hk)).ne'
          simp only [hku, List.mem_cons, false_or, ne_eq, not_false_eq_true, and_true, if_false]
          refine if_congr ⟨fun hk => ⟨hk, hne hk⟩, fun hk => hk.1⟩ rfl rfl
      · rw [hlast'] at hk'
        rw [hstore, if_neg hk'.ne']
        exact hrow k' (hlt.trans hk')

theorem processTask_row {task : GCTask} (hit : Iterates s task userKeys)
    (hrun : processTask s task full userKeys = some s') (k : Key) :
    s' k = if k ∈ userKeys ∧ k ≠ [] then collected s k task.safePoint k else s k :=
  processKeys_row hrun hit.sorted (fun _ _ => not_lt.mp (List.not_lt_nil _))
    (fun _ _ => rfl) k

end

/-! ### The outcome of a transaction -/

section
variable {s s' : Store} {p : Key} {t c : TimeStamp}

theorem commitTS_eq_iff {caller : TimeStamp} {rb : Bool} (hc : c ≠ 0) :
    (checkTxnStatusWithCleanup s p t caller rb).1.commitTS = c ↔
      (∀ lock, (s p).lock = some lock → lock.startTS ≠ t) ∧
        ∃ w, getTxnCommitRecord s p t = some (c, w) ∧ w.writeType ≠ .rollback := by
  rcases checkTxnStatusWithCleanup_cases s p t caller rb with
    ⟨lock, hl, ht, h⟩ | ⟨hno, ms, h, -⟩ | ⟨hno, ⟨⟨c', w⟩, hq, h⟩ | ⟨hq, h⟩⟩
  · rw [h]
    exact ⟨fun h0 => absurd h0.symm hc, fun h1 => absurd ht (h1.1 lock hl)⟩
  · rw [h]
    refine ⟨fun h0 => absurd h0.symm hc, fun h1 => ?_⟩
    rcases hno with ⟨lock, hl, ht⟩ | hno
    · exact absurd ht (h1.1 lock hl)
    · obtain ⟨w, hw, -⟩ := h1.2
      exact absurd (hw.symm.trans hno) (by simp)
  · rw [h, hq, TxnStatus.ofRecord]
    by_cases hw : w.writeType = .rollback
    · rw [if_pos hw]
      refine ⟨fun h0 => absurd h0.symm hc, ?_⟩
      rintro ⟨-, w', hw', hne⟩
      cases hw'
      exact absurd hw hne
    · rw [if_neg hw]
      constructor
      · rintro rfl
        exact ⟨hno, w, rfl, hw⟩
      · rintro ⟨-, w', hw', -⟩
        cases hw'
        rfl
  · rw [h, hq]
    exact ⟨fun h0 => absurd h0.symm hc, fun h1 => absurd h1.2 (by simp)⟩

theorem getTxnCommitRecord_of_subset {q : TimeStamp × Write}
    (hsub : ∀ r ∈ (s' p).writes.entries, r ∈ (s p).writes.entries)
    (h : getTxnCommitRecord s p t = some q) :
    getTxnCommitRecord s' p t = some q ↔ q ∈ (s' p).writes.entries := by
  obtain ⟨-, hqt, hall⟩ := getTxnCommitRecord_eq_some_iff.mp h
  rw [getTxnCommitRecord_eq_some_iff]
  exact ⟨fun h' => h'.1, fun hq => ⟨hq, hqt, fun r hr => hall r (hsub r hr)⟩⟩

def VisibleAt (r : Row) (sp c : TimeStamp) : Prop :=
  ∃ w, (c, w) ∈ r.writes.entries ∧ w.writeType = .put ∧
    ∀ q ∈ r.writes.entries, q.2.isDataChanged → q.1 ≤ sp → q.1 ≤ c

theorem survivor_iff_visibleAt {w : Write} {sp : TimeStamp} {r : Row}
    (hw : (c, w) ∈ r.writes.entries) (hle : c ≤ sp) :
    survivor r sp = some (c, w) ↔ VisibleAt r sp c := by
  rw [survivor, Option.filter_eq_some_iff, Versions.newest_eq_some_iff]
  constructor
  · rintro ⟨⟨⟨-, -, -⟩, hmax⟩, hp⟩
    refine ⟨w, hw, by simpa using hp, fun q hq hd hqs => ?_⟩
    exact hmax q hq hqs hd
  · rintro ⟨w', hw', hp, hmax⟩
    obtain rfl : w = w' := Versions.eq_of_mem hw hw'
    refine ⟨⟨⟨hw, hle, ?_⟩, fun q hq hqs hd => hmax q hq hd hqs⟩, by simpa using hp⟩
    simp [Write.isDataChanged, hp]

/-- **When a task keeps the outcome of a transaction**: its primary is out of range or
the empty key, or its commit record is above the safe point, or it is the Put that a
read at the safe point sees.  Whether other keys still hold locks plays no part. -/
theorem status_after_task_iff {task : GCTask} {full : List Modify → Bool}
    {userKeys : List Key} (hit : Iterates s task userKeys)
    (hrun : processTask s task full userKeys = some s') (hc : c ≠ 0)
    {caller caller' : TimeStamp} {rb rb' : Bool}
    (hst : (checkTxnStatusWithCleanup s p t caller rb).1.commitTS = c) :
    (checkTxnStatusWithCleanup s' p t caller' rb').1.commitTS = c ↔
      p = [] ∨ ¬task.Covers p c ∨ task.safePoint < c ∨ VisibleAt (s p) task.safePoint c := by
  obtain ⟨hno, w, hq, hw⟩ := (commitTS_eq_iff hc).mp hst
  have hmem := (mem_of_getTxnCommitRecord hq).1
  have hcov : p ∈ userKeys ↔ task.Covers p c := by
    rw [hit.mem]
    constructor
    · rintro ⟨r, hr, h1, h2⟩
      exact ⟨h1, h2.imp_right (Or.imp_right fun h => ⟨h.1, hc⟩)⟩
    · exact fun h => ⟨(c, w), hmem, h⟩
  have hrow := processTask_row hit hrun p
  by_cases hp : p ∈ userKeys ∧ p ≠ []
  · -- the key is collected: the lock stays, and the record unless it is removed
    rw [if_pos hp] at hrow
    have hsub : ∀ r ∈ (s' p).writes.entries, r ∈ (s p).writes.entries := by
      rw [hrow]
      exact fun r hr => (mem_collected.mp hr).1
    have hleft : (c, w) ∈ (s' p).writes.entries ↔
        task.safePoint < c ∨ VisibleAt (s p) task.safePoint c := by
      rw [hrow, mem_collected, Removed]
      by_cases hle : c ≤ task.safePoint
      · rw [← survivor_iff_visibleAt hmem hle]
        simp [hmem, hle, not_lt.mpr hle]
      · simp [hmem, hle, not_le.mp hle]
    have hlock : (s' p).lock = (s p).lock := by rw [hrow, collected_lock]
    rw [commitTS_eq_iff hc, hlock]
    simp only [hp.2, hcov.mp hp.1, not_true_eq_false, false_or]
    rw [← hleft, ← getTxnCommitRecord_of_subset hsub hq]
    constructor
    · rintro ⟨-, w', hq', -⟩
      have hw' := hsub _ (mem_of_getTxnCommitRecord hq').1
      rwa [Versions.eq_of_mem hw' hmem] at hq'
    · exact fun hq' => ⟨hno, w, hq', hw⟩
  · rw [if_neg hp] at hrow
    have hkept : p = [] ∨ ¬task.Covers p c := by
      rw [← hcov, ← not_ne_iff, ← not_and_or, and_comm]
      exact hp
    refine iff_of_true ?_ (by tauto)
    have hlook : getTxnCommitRecord s' p t = getTxnCommitRecord s p t := by
      unfold getTxnCommitRecord
      rw [hrow]
    rw [commitTS_eq_iff hc, hrow, hlook]
    exact ⟨hno, w, hq, hw⟩

end

def unresolved : List Storage.Command :=
  [.prewrite [{ op := .put, key := [1], value := some [7] },
      { op := .put, key := [2], value := some [7] }] [1] 5 100,
    .commit [[1]] 5 6,
    .prewrite [{ op := .put, key := [1], value := some [8] }] [1] 7 100, .commit [[1]] 7 8]

def LeftLocked (s : Store) (k p : Key) (t : TimeStamp) : Prop :=
  ∃ lock, (s k).lock = some lock ∧ lock.startTS = t ∧ lock.primary = p

theorem named_of_run {cmds : List Storage.Command} {k : Key} {q : TimeStamp × Write} :
    ∀ {s s' : Store}, Storage.system.runFrom s cmds = some s' → q ∈ (s' k).writes.entries →
      q ∈ (s k).writes.entries ∨ ∃ cmd ∈ cmds, ∃ a ∈ cmd.actions, a.key = k := by
  induction cmds with
  | nil =>
    intro s s' h hq
    cases h
    exact Or.inl hq
  | cons cmd cmds ih =>
    intro s s' h hq
    have hrun : Storage.system.runFrom (Storage.run s cmd) cmds = some s' := h
    rcases ih hrun hq with hq' | ⟨cmd', hcmd', h'⟩
    · by_cases hacc : Storage.Accepted s cmd
      · rcases Storage.mem_run hacc hq' with hq' | ⟨a, ha, hk, -⟩
        · exact Or.inl hq'
        · exact Or.inr ⟨cmd, by simp, a, ha, hk⟩
      · rw [Storage.run_refused hacc] at hq'
        exact Or.inl hq'
    · exact Or.inr ⟨cmd', by simp [hcmd'], h'⟩

theorem iterates_unresolved {s : Store} {sp : TimeStamp}
    (hs : Storage.system.runFrom Store.empty unresolved = some s) :
    Iterates s { safePoint := sp } [[1], [1]] := by
  refine ⟨by simp, fun k => ⟨fun hk => ?_, ?_⟩⟩
  · obtain rfl : k = [1] := by simpa using hk
    cases hs
    exact ⟨(6, _), .tail _ (.head _), Or.inl rfl, Or.inl rfl⟩
  · rintro ⟨q, hq, -⟩
    obtain hq' | ⟨cmd, hcmd, a, ha, rfl⟩ := named_of_run hs hq
    · exact absurd hq' (by simp [Store.empty])
    · have hkey : ∀ cmd ∈ unresolved, ∀ a ∈ cmd.actions, a.key = [1] ∨ a.key = [2] := by
        decide
      rcases hkey cmd hcmd a ha with hk | hk
      · simp [hk]
      · rw [hk] at hq
        cases hs
        exact absurd hq List.not_mem_nil

theorem status_after_task_unresolved : ∃ s s', Storage.system.Reachable s ∧ LeftLocked s [2] [1] 5 ∧
    processTask s { safePoint := 7 } (fun _ => false) [[1], [1]] = some s' ∧
    (checkTxnStatusWithCleanup s' [1] 5 9 true).1.commitTS = 6 := by
  obtain ⟨s, hs, hk, hst, hrun, hvis⟩ : ∃ s,
      Storage.system.runFrom Store.empty unresolved = some s ∧ LeftLocked s [2] [1] 5 ∧
        (checkTxnStatusWithCleanup s [1] 5 9 true).1.commitTS = 6 ∧
        (processTask s { safePoint := 7 } (fun _ => false) [[1], [1]]).isSome ∧
        VisibleAt (s [1]) 7 6 :=
    ⟨_, rfl, ⟨_, rfl, rfl, rfl⟩, rfl, rfl, _, .tail _ (.head _), rfl, by decide⟩
  obtain ⟨s', hs'⟩ := Option.isSome_iff_exists.mp hrun
  refine ⟨s, s', StepSystem.reachable_of_run .start hs, hk, hs', ?_⟩
  exact (status_after_task_iff (iterates_unresolved hs) hs' (by decide) hst).mpr
    (Or.inr (Or.inr (Or.inr hvis)))

/-- **The outcome of a transaction is lost**: its primary was committed at 6 and another
key is still locked; after the task the transaction is taken for rolled back. -/
theorem outcome_lost_reachable : ∃ s s', Storage.system.Reachable s ∧ LeftLocked s [2] [1] 5 ∧
    (checkTxnStatusWithCleanup s [1] 5 9 true).1.commitTS = 6 ∧
    Iterates s { safePoint := 8 } [[1], [1]] ∧
    processTask s { safePoint := 8 } (fun _ => false) [[1], [1]] = some s' ∧
    LeftLocked s' [2] [1] 5 ∧
    (checkTxnStatusWithCleanup s' [1] 5 9 true).1 = { isRolledBack := true } := by
  obtain ⟨s, s', hs, hk, hst, hs', hk', hst'⟩ : ∃ s s',
      Storage.system.runFrom Store.empty unresolved = some s ∧ LeftLocked s [2] [1] 5 ∧
        (checkTxnStatusWithCleanup s [1] 5 9 true).1.commitTS = 6 ∧
        processTask s { safePoint := 8 } (fun _ => false) [[1], [1]] = some s' ∧
        LeftLocked s' [2] [1] 5 ∧
        (checkTxnStatusWithCleanup s' [1] 5 9 true).1 = { isRolledBack := true } :=
    ⟨_, _, rfl, ⟨_, rfl, rfl, rfl⟩, rfl, rfl, ⟨_, rfl, rfl, rfl⟩, rfl⟩
  exact ⟨s, s', StepSystem.reachable_of_run .start hs, hk, hst, iterates_unresolved hs, hs',
    hk', hst'⟩

end Gc
