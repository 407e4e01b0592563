/-
How exact the write-conflict checks are.
-/
import Gookv.Pessimistic

open Txntypes Mvcc

namespace Txn

def NewerData (r : Row) (ts : TimeStamp) : Prop :=
  ∃ q ∈ r.writes.entries, q.2.isDataChanged ∧ ts < q.1

def recordsAbove (r : Row) : ℕ :=
  (r.writes.entries.takeWhile fun q => !q.2.isDataChanged).length

theorem conflictScan_eq_true {ts : TimeStamp} :
    ∀ {n : ℕ} {l : List (TimeStamp × Write)}, conflictScan ts n l = true →
      (∃ q ∈ l, q.2.isDataChanged ∧ ts < q.1) ∧
        (l.takeWhile fun q => !q.2.isDataChanged).length < n := by
  intro n
  induction n with
  | zero =>
    intro l h
    simp [conflictScan] at h
  | succ n ih =>
    intro l h
    cases l with
    | nil => simp [conflictScan] at h
    | cons q l =>
      obtain ⟨c, w⟩ := q
      rw [conflictScan] at h
      by_cases hc : c ≤ ts
      · simp [hc] at h
      rw [if_neg hc] at h
      by_cases hw : w.isDataChanged
      · exact ⟨⟨(c, w), by simp, hw, not_le.mp hc⟩, by simp [hw]⟩
      · rw [if_neg (mt Write.isDataChanged_iff.mpr hw)] at h
        obtain ⟨⟨q, hq, hdata, hlt⟩, hlen⟩ := ih h
        refine ⟨⟨q, List.mem_cons_of_mem _ hq, hdata, hlt⟩, ?_⟩
        simpa [List.takeWhile_cons, hw] using hlen

theorem conflictLoop_eq_true_iff {k : Key} {n : ℕ} {s : Store} {ts : TimeStamp} :
    conflictLoop s k ts n tsMax = true ↔ NewerData (s k) ts ∧ recordsAbove (s k) < n := by
  constructor
  · intro h
    rw [conflictLoop_eq_scan, Versions.upTo_eq_entries fun q => le_tsMax q.1] at h
    exact conflictScan_eq_true h
  · rintro ⟨⟨q, hq, hdata, hlt⟩, hlen⟩
    by_contra hfalse
    have hle := le_of_conflictLoop_eq_false (by simpa using hfalse) (fun _ => hlen) hq hdata
    exact absurd hlt (not_lt.mpr hle)

variable {k : Key} {s : Store} {ts : TimeStamp} {n : ℕ}

theorem newestConflict_iff :
    newestConflict s k ts = true ↔ NewerData (s k) ts ∧ recordsAbove (s k) = 0 := by
  rw [newestConflict_eq_conflictLoop, conflictLoop_eq_true_iff, Nat.lt_one_iff]

section

variable {s : Store} {m : Mutation}

section
variable (hlock : (s m.key).lock = none)
include hlock

theorem prewrite_eq_writeConflict_iff (props : PrewriteProps) :
    prewrite s props m = .error .writeConflict ↔
      NewerData (s m.key) props.startTS ∧ recordsAbove (s m.key) < conflictBound := by
  rw [← conflictLoop_eq_true_iff, prewrite, loadLock, hlock]
  dsimp only
  split_ifs with hc
  · simp [hc]
  · simp [hc]

theorem prewrite_isOk_iff (props : PrewriteProps) : (∃ ms, prewrite s props m = .ok ms) ↔
      ¬ (NewerData (s m.key) props.startTS ∧ recordsAbove (s m.key) < conflictBound) := by
  rw [← conflictLoop_eq_true_iff, prewrite, loadLock, hlock]
  dsimp only
  split_ifs with hc
  · simp [hc]
  · simp [hc]

theorem prewriteAsyncCommit_eq_writeConflict_iff (props : AsyncCommitPrewriteProps) :
    prewriteAsyncCommit s props m = .error .writeConflict ↔
      NewerData (s m.key) props.startTS ∧ recordsAbove (s m.key) < conflictBound := by
  rw [← conflictLoop_eq_true_iff, prewriteAsyncCommit, loadLock, hlock]
  dsimp only
  split_ifs with hc
  · simp [hc]
  · simp [hc]

theorem onePCError_eq_none_iff (props : OnePCProps) : onePCError s props m = none ↔
      ¬ (NewerData (s m.key) props.startTS ∧ recordsAbove (s m.key) = 0) := by
  rw [← newestConflict_iff, onePCError, loadLock, hlock]
  simp [Option.filter]

theorem prewriteAndCommit1PC_accepts_iff (props : OnePCProps) :
    (prewriteAndCommit1PC s props [m]).1 = [none] ↔
      ¬ (NewerData (s m.key) props.startTS ∧ recordsAbove (s m.key) = 0) := by
  rw [← onePCError_eq_none_iff hlock props, prewriteAndCommit1PC]
  split_ifs with h
  · simp
  · simp

theorem prewritePessimistic_isOk_iff {props : PessimisticPrewriteProps}
    (hprops : props.isPessimistic = false) :
    (∃ ms, prewritePessimistic s props m = .ok ms) ↔
      ¬ (NewerData (s m.key) props.startTS ∧ recordsAbove (s m.key) = 0) := by
  rw [← newestConflict_iff, prewritePessimistic, loadLock, hlock]
  dsimp only
  rw [if_neg (by simp [hprops])]
  split_ifs with hc
  · simp [hc]
  · simp [hc]

end

end

/-! ### Exactness -/

def Agrees (r : Row) (ts : TimeStamp) : Prop :=
  NewerData r ts → recordsAbove r = 0 ∨ conflictBound ≤ recordsAbove r

theorem checksAgree_iff {r : Row} : (¬ (NewerData r ts ∧ recordsAbove r = 0) ↔
      ¬ (NewerData r ts ∧ recordsAbove r < conflictBound)) ↔ Agrees r ts := by
  have hpos : 0 < conflictBound := by decide
  unfold Agrees
  by_cases hnew : NewerData r ts
  · simp only [hnew, true_and, true_implies]
    omega
  · simp [hnew]

/-- **Write conflicts.**  On a key without a lock the conflict checks of `Prewrite` and
`PrewriteAsyncCommit` are exact if and only if fewer than 64 records hide the newest Put or
Delete, where that is newer than the transaction.  `PrewriteAndCommit1PC` and
`PrewritePessimistic` accept what `Prewrite` accepts if and only if in that case no record
hides it, or 64 do. -/
theorem conflict_checks_iff (s : Store) (m : Mutation) (hlock : (s m.key).lock = none) :
    (∀ props : PrewriteProps,
      (prewrite s props m = .error .writeConflict ↔ NewerData (s m.key) props.startTS) ↔
        InReach conflictBound props.startTS (s m.key)) ∧ (∀ props : AsyncCommitPrewriteProps,
      (prewriteAsyncCommit s props m = .error .writeConflict ↔
        NewerData (s m.key) props.startTS) ↔
        InReach conflictBound props.startTS (s m.key)) ∧
    (∀ (props : PrewriteProps) (onePC : OnePCProps), onePC.startTS = props.startTS →
      (((prewriteAndCommit1PC s onePC [m]).1 = [none] ↔ ∃ ms, prewrite s props m = .ok ms) ↔
        Agrees (s m.key) props.startTS)) ∧
    (∀ (props : PrewriteProps) (pess : PessimisticPrewriteProps),
      pess.startTS = props.startTS → pess.isPessimistic = false →
      (((∃ ms, prewritePessimistic s pess m = .ok ms) ↔ ∃ ms, prewrite s props m = .ok ms) ↔
        Agrees (s m.key) props.startTS)) := by
  have hreach : ∀ ts : TimeStamp,
      ((NewerData (s m.key) ts ∧ recordsAbove (s m.key) < conflictBound ↔
        NewerData (s m.key) ts) ↔ InReach conflictBound ts (s m.key)) := by
    intro ts
    rw [and_iff_left_iff_imp]
    rfl
  refine ⟨fun props => ?_, fun props => ?_, fun props onePC hts => ?_,
    fun props pess hts hpess => ?_⟩
  · rw [prewrite_eq_writeConflict_iff hlock]
    exact hreach _
  · rw [prewriteAsyncCommit_eq_writeConflict_iff hlock]
    exact hreach _
  · rw [prewriteAndCommit1PC_accepts_iff hlock, prewrite_isOk_iff hlock, hts]
    exact checksAgree_iff
  · rw [prewritePessimistic_isOk_iff hlock hpess, prewrite_isOk_iff hlock, hts]
    exact checksAgree_iff

def hiddenPut (n : ℕ) : List (TimeStamp × Write) :=
  (List.range n).map (fun i => (UInt64.ofNat (100 - i), rollbackWrite (UInt64.ofNat (100 - i)))) ++
    [(10, { writeType := .put, startTS := 9, shortValue := some [7] })]

def hiddenPutStore (n : ℕ) (h : (hiddenPut n).Pairwise fun a b => b.1 < a.1) : Store :=
  fun _ => { writes := ⟨hiddenPut n, h⟩ }

theorem newerData_hiddenPut (h : (hiddenPut n).Pairwise fun a b => b.1 < a.1) (k : Key) :
    NewerData (hiddenPutStore n h k) 5 :=
  ⟨(10, _), List.mem_append_right _ (List.mem_singleton_self _), by decide, by decide⟩

theorem recordsAbove_hiddenPut (h : (hiddenPut n).Pairwise fun a b => b.1 < a.1)
    (k : Key) : recordsAbove (hiddenPutStore n h k) = n := by
  show ((hiddenPut n).takeWhile fun q => !q.2.isDataChanged).length = n
  rw [hiddenPut, List.takeWhile_append_of_pos]
  · simp [Write.isDataChanged]
  · intro q hq
    obtain ⟨i, -, rfl⟩ := List.mem_map.mp hq
    rfl

theorem conflict_checks_iff_rollbacks : ∃ s : Store, (s [1]).lock = none ∧ NewerData (s [1]) 5 ∧
    prewrite s { startTS := 5, primary := [1], lockTTL := 10 } { op := .put, key := [1] } =
      .error .writeConflict ∧
    ¬ ((prewriteAndCommit1PC s { startTS := 5, commitTS := 200, primary := [1], lockTTL := 10 }
        [{ op := .put, key := [1] }]).1 = [none] ↔
      ∃ ms, prewrite s { startTS := 5, primary := [1], lockTTL := 10 } { op := .put, key := [1] } =
        .ok ms) := by
  have hsorted : (hiddenPut 3).Pairwise fun a b => b.1 < a.1 := by decide
  have hnew := newerData_hiddenPut hsorted [1]
  have habove := recordsAbove_hiddenPut hsorted [1]
  obtain ⟨hprewrite, -, honePC, -⟩ :=
    conflict_checks_iff (hiddenPutStore 3 hsorted) { op := .put, key := [1] } rfl
  refine ⟨hiddenPutStore 3 hsorted, rfl, hnew, ?_, ?_⟩
  · have hreach : InReach conflictBound 5 (hiddenPutStore 3 hsorted [1]) := fun _ =>
      habove.trans_lt (by decide)
    exact ((hprewrite _).mpr hreach).mpr hnew
  · refine fun hsame => ?_
    have hagrees := (honePC _ _ rfl).mp hsame
    rcases hagrees hnew with h | h
    · rw [habove] at h
      cases h
    · rw [habove] at h
      exact absurd h (by decide)

theorem conflict_checks_hidden : (∃ s : Store, (s [1]).lock = none ∧ NewerData (s [1]) 5 ∧
      prewrite s { startTS := 5, primary := [1], lockTTL := 10 } { op := .put, key := [1] } ≠
        .error .writeConflict ∧
      prewriteAsyncCommit s
          { startTS := 5, primary := [1], lockTTL := 10, useAsyncCommit := true }
          { op := .put, key := [1] } ≠ .error .writeConflict) ∧
    ∃ s : Store, (s [1]).lock = none ∧ NewerData (s [1]) 5 ∧
      prewrite s { startTS := 5, primary := [1], lockTTL := 10 } { op := .put, key := [1] } =
        .error .writeConflict ∧
      (prewriteAndCommit1PC s { startTS := 5, commitTS := 200, primary := [1], lockTTL := 10 }
        [{ op := .put, key := [1] }]).1 = [none] ∧
      ∃ ms, prewritePessimistic s
        { startTS := 5, primary := [1], lockTTL := 10, forUpdateTS := 5, isPessimistic := false }
        { op := .put, key := [1] } = .ok ms := by
  constructor
  · have hsorted : (hiddenPut 64).Pairwise fun a b => b.1 < a.1 := by decide +kernel
    have habove : ¬ recordsAbove (hiddenPutStore 64 hsorted [1]) < conflictBound := by
      rw [recordsAbove_hiddenPut]
      decide
    refine ⟨hiddenPutStore 64 hsorted, rfl, newerData_hiddenPut hsorted [1], ?_, ?_⟩
    · exact fun h => habove ((prewrite_eq_writeConflict_iff rfl _).mp h).2
    · exact fun h => habove ((prewriteAsyncCommit_eq_writeConflict_iff rfl _).mp h).2
  · have hsorted : (hiddenPut 1).Pairwise fun a b => b.1 < a.1 := by decide
    have hnew := newerData_hiddenPut hsorted [1]
    have habove := recordsAbove_hiddenPut hsorted [1]
    have hlt : recordsAbove (hiddenPutStore 1 hsorted [1]) < conflictBound := by
      rw [habove]
      decide
    have hne : recordsAbove (hiddenPutStore 1 hsorted [1]) ≠ 0 := by
      rw [habove]
      decide
    refine ⟨hiddenPutStore 1 hsorted, rfl, hnew, ?_, ?_, ?_⟩
    · exact (prewrite_eq_writeConflict_iff rfl _).mpr ⟨hnew, hlt⟩
    · exact (prewriteAndCommit1PC_accepts_iff rfl _).mpr fun h => hne h.2
    · exact (prewritePessimistic_isOk_iff rfl rfl).mpr fun h => hne h.2

end Txn
