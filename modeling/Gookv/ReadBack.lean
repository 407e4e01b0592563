/-
A committed value is read back.

An empty value is short, but neither record is written with an empty short value, so a read looks
for it in CF_DEFAULT, where nothing was put.
-/
import Gookv.AsyncCommit

open Txntypes Mvcc

namespace Txn

open List OnePCProps Option Versions

def NothingNewer (r : Row) (ts : TimeStamp) : Prop :=
  ∀ q ∈ r.writes.entries, ts < q.1 → ¬ q.2.isDataChanged ∧ q.2.lastChange.ts = 0

def ReadsBack (s : Store) (key : Key) (value : Value) (commitTS : TimeStamp) : Prop :=
  ∀ pg : PointGetter, commitTS ≤ pg.ts → pg.get s key = .ok (some value)

def Survives (r : Row) (startTS : TimeStamp) (value : Value) : Prop :=
  value ≠ [] ∨ r.values startTS = some []

instance (r : Row) (startTS : TimeStamp) (value : Value) : Decidable (Survives r startTS value) :=
  inferInstanceAs (Decidable (_ ∨ _))

theorem getWriteLoop_append {w : Write} {c : TimeStamp}
    {above below : List (TimeStamp × Write)} {fuel : ℕ} {chain : Versions TimeStamp Write}
    (hw : w.writeType = .put) (habove : ∀ q ∈ above, ¬ q.2.isDataChanged ∧ q.2.lastChange.ts = 0)
    (hfuel : above.length < fuel) :
    getWriteLoop chain fuel (above ++ (c, w) :: below) = some (c, w) := by
  induction above generalizing fuel with
  | nil =>
    obtain ⟨n, rfl⟩ : ∃ n, fuel = n + 1 := ⟨fuel - 1, by simp at hfuel; omega⟩
    rw [nil_append, getWriteLoop, hw]
  | cons q above ih =>
    obtain ⟨n, rfl⟩ : ∃ n, fuel = n + 1 := ⟨fuel - 1, by simp at hfuel; omega⟩
    obtain ⟨c', w'⟩ := q
    obtain ⟨hdata, hts⟩ := habove (c', w') (by simp)
    have hstep := ih (fun q hq => habove q (mem_cons_of_mem _ hq))
      (show above.length < n by simpa using hfuel)
    have hjump : ¬ (seekBound ≤ w'.lastChange.estimatedVersions ∧ w'.lastChange.ts ≠ 0) :=
      fun h => h.2 hts
    rw [cons_append, getWriteLoop]
    cases hty : w'.writeType with
    | put | delete => simp [Write.isDataChanged, hty] at hdata
    | lock | rollback =>
      dsimp only
      rw [if_neg hjump, hstep]

variable {c : TimeStamp} {w : Write}

theorem getWrite_put {s : Store} {r : Row} {ts : TimeStamp} {k : Key}
    (hrow : (s k).writes = r.writes.put c w) (hw : w.writeType = .put) (hr : NothingNewer r c)
    (hts : c ≤ ts) : getWrite s k ts = some (c, w) := by
  have hmem : (c, w) ∈ (s k).writes.upTo ts := by
    rw [mem_upTo, hrow]
    exact ⟨mem_put.mpr (.inl rfl), hts⟩
  obtain ⟨above, below, hsplit⟩ := append_of_mem hmem
  have hsorted := (s k).writes.upTo_sorted ts
  rw [hsplit, pairwise_append] at hsorted
  -- what the read meets before the Put was there before, above its timestamp
  have habove : ∀ q ∈ above, ¬ q.2.isDataChanged ∧ q.2.lastChange.ts = 0 := by
    intro q hq
    have hlt : c < q.1 := hsorted.2.2 q hq (c, w) (by simp)
    have hq' : q ∈ (s k).writes.upTo ts := by
      rw [hsplit]
      exact mem_append_left _ hq
    have hold := (mem_upTo.mp hq').1
    rw [hrow, mem_put] at hold
    rcases hold with rfl | hold
    · exact absurd hlt (lt_irrefl _)
    · exact hr q hold.2 hlt
  have hlen : above.length < (s k).writes.entries.length + 1 := by
    have h := ((s k).writes.upTo_suffix ts).length_le
    rw [hsplit, length_append] at h
    omega
  rw [getWrite, hsplit]
  exact getWriteLoop_append hw habove hlen

structure HoldsPut (r' r : Row) (startTS commitTS : TimeStamp) (value : Value) : Prop where
  lock : r'.lock = none
  writes : ∃ w : Write, r'.writes = r.writes.put commitTS w ∧ w.writeType = .put ∧
    w.startTS = startTS ∧
    w.shortValue = if value.length ≤ shortValueMaxLen ∧ value ≠ [] then some value else none
  values : r'.values startTS =
    if shortValueMaxLen < value.length then some value else r.values startTS

section
variable {s : Store} {k : Key} {r : Row} {t c : TimeStamp} {v : Value} (h : HoldsPut (s k) r t c v)
include h

theorem get_of_holdsPut (hr : NothingNewer r c) (pg : PointGetter) (hts : c ≤ pg.ts) :
    pg.get s k = .ok (if v = [] then r.values t else some v) := by
  obtain ⟨w, hrow, hput, rfl, hshort⟩ := h.writes
  rw [pg.get_of_unlocked h.lock, visibleValue, getWrite_put hrow hput hr hts]
  dsimp only
  rw [writeValue, hshort]
  by_cases hv : v = []
  · subst hv
    have hvalues := h.values
    rw [if_neg (by simp)] at hvalues
    simp [getValue, hvalues]
  · rw [if_neg hv]
    by_cases hlen : v.length ≤ shortValueMaxLen
    · rw [if_pos ⟨hlen, hv⟩]
    · have hvalues := h.values
      rw [if_pos (not_le.mp hlen)] at hvalues
      rw [if_neg (fun hand => hlen hand.1)]
      dsimp only
      rw [getValue, hvalues]

theorem readBack_iff_of_holdsPut (hr : NothingNewer r c) : ReadsBack s k v c ↔ Survives r t v := by
  have hget := get_of_holdsPut h hr
  unfold ReadsBack Survives
  by_cases hv : v = []
  · subst hv
    constructor
    · intro hread
      have hboth := (hget { ts := c } le_rfl).symm.trans (hread { ts := c } le_rfl)
      exact .inr (Except.ok.inj hboth)
    · rintro (hne | hvalue) pg hts
      · exact absurd rfl hne
      · rw [hget pg hts, if_pos rfl, hvalue]
  · refine ⟨fun _ => .inl hv, fun _ pg hts => ?_⟩
    rw [hget pg hts, if_neg hv]

/-! ### The three ways to commit -/

end

section

variable {s : Store} {m : Mutation} {v : Value} {c : TimeStamp} {ms ms' : List Modify}

theorem filter_shortValue (hv : m.value = some v) : m.shortValue.filter (· ≠ []) =
      if v.length ≤ shortValueMaxLen ∧ v ≠ [] then some v else none := by
  rw [Mutation.shortValue, hv]
  by_cases hlen : v.length ≤ shortValueMaxLen
  · by_cases hne : v = []
    · simp [Option.filter, hne]
    · simp [Option.filter, hlen, hne]
  · simp [Option.filter, hlen]

section
variable (hop : m.op = .put) {lock : Lock}
include hop

theorem putLargeValue_values (hv : m.value = some v) (t : TimeStamp)
    (r : Row) : ((m.putLargeValue t).foldl Row.apply r).values t =
      if shortValueMaxLen < v.length then some v else r.values t := by
  rw [Mutation.putLargeValue, hop, hv]
  dsimp only
  split_ifs with hlen
  · exact Function.update_self _ _ _
  · rfl

theorem holdsPut_committed {r : Row} (hv : m.value = some v)
    (htype : lock.lockType = .put) (hshort : lock.shortValue = m.shortValue) :
    HoldsPut (committed (prewritten r lock m) lock.reload c) r lock.startTS c v where
  lock := rfl
  writes := by
    refine ⟨(commitWrite lock.reload).reload, ?_, ?_, rfl, ?_⟩
    · rw [committed_writes, prewritten_writes]
    · simp [commitWrite, htype, lockTypeToWriteType]
    · show (lock.shortValue.filter (· ≠ [])).filter (· ≠ []) = _
      rw [hshort, filter_shortValue hv]
      split_ifs with h
      · simp [Option.filter, h.2]
      · rfl
  values := putLargeValue_values hop hv lock.startTS _

theorem holdsPut_of_commit {t : TimeStamp}
    (hv : m.value = some v) (htype : lock.lockType = .put) (hshort : lock.shortValue = m.shortValue)
    (hstart : lock.startTS = t) (hturns : Turns ms m.key (s m.key) (prewritten (s m.key) lock m))
    (hcommit : commit (applyModifies s ms) m.key t c = .ok ms') :
    HoldsPut (applyModifies (applyModifies s ms) ms' m.key) (s m.key) t c v := by
  have hrow : applyModifies s ms m.key = prewritten (s m.key) lock m := by
    rw [hturns.applyModifies_eq, Function.update_self]
  obtain ⟨lock', hlock', -, -, hcase⟩ := commit_ok hcommit
  rw [hrow, prewritten_lock, some_inj] at hlock'
  subst hlock'
  rcases hcase with ⟨hpess, -⟩ | ⟨-, hturns'⟩
  · rw [Lock.reload_lockType, htype] at hpess
    exact absurd hpess (by decide)
  · rw [hturns'.applyModifies_eq, Function.update_self, hrow, ← hstart]
    exact holdsPut_committed hop hv htype hshort

theorem holdsPut_of_prewrite {props : PrewriteProps} (hv : m.value = some v)
    (hlock : (s m.key).lock = none) (hprewrite : prewrite s props m = .ok ms)
    (hcommit : commit (applyModifies s ms) m.key props.startTS c = .ok ms') :
    HoldsPut (applyModifies (applyModifies s ms) ms' m.key) (s m.key) props.startTS c v := by
  rcases prewrite_ok hprewrite with ⟨lock, hlock', -⟩ | ⟨-, -, hturns⟩
  · exact absurd (hlock.symm.trans hlock') (by simp)
  · refine holdsPut_of_commit hop hv ?_ rfl rfl hturns hcommit
    simp [PrewriteProps.lock, hop, mutationOpToLockType]

theorem holdsPut_of_prewriteAsyncCommit {props : AsyncCommitPrewriteProps}
    (hv : m.value = some v) (hlock : (s m.key).lock = none)
    (hprewrite : prewriteAsyncCommit s props m = .ok ms)
    (hcommit : commit (applyModifies s ms) m.key props.startTS c = .ok ms') :
    HoldsPut (applyModifies (applyModifies s ms) ms' m.key) (s m.key) props.startTS c v := by
  rcases prewriteAsyncCommit_ok hprewrite with ⟨lock, hlock', -⟩ | ⟨-, -, hturns⟩
  · exact absurd (hlock.symm.trans hlock') (by simp)
  · refine holdsPut_of_commit hop hv ?_ (asyncLock_shortValue props m) (asyncLock_startTS props m)
      hturns hcommit
    simp [hop, mutationOpToLockType]

end

theorem filter_flatMap_modifies (props : OnePCProps) (k : Key) (muts : List Mutation) :
    (muts.flatMap props.modifies).filter (fun x => x.key = k) =
      (muts.filter fun m => m.key = k).flatMap props.modifies := by
  induction muts with
  | nil => rfl
  | cons m muts ih =>
    rw [flatMap_cons, filter_append, ih]
    by_cases hm : m.key = k
    · have hself : (props.modifies m).filter (fun x => x.key = k) = props.modifies m :=
        filter_eq_self.mpr fun x hx => by simp [modifies_key hx, hm]
      rw [hself, filter_cons_of_pos (by simpa using hm), flatMap_cons]
    · have hnil : (props.modifies m).filter (fun x => x.key = k) = [] :=
        filter_eq_nil_iff.mpr fun x hx => by simp [modifies_key hx, hm]
      rw [hnil, nil_append, filter_cons_of_neg (by simpa using hm)]

theorem holdsPut_of_1PC {props : OnePCProps} {muts : List Mutation} (hop : m.op = .put)
    (hv : m.value = some v) (hlock : (s m.key).lock = none)
    (honly : muts.filter (fun m' => m'.key = m.key) = [m])
    (hok : (prewriteAndCommit1PC s props muts).1.any Option.isSome = false) :
    HoldsPut (applyModifies s (prewriteAndCommit1PC s props muts).2 m.key) (s m.key)
      props.startTS props.commitTS v := by
  rcases prewriteAndCommit1PC_cases s props muts with ⟨herr, -⟩ | ⟨-, -, hms⟩
  · rw [hok] at herr
    exact absurd herr (by simp)
  have hrow : applyModifies s (prewriteAndCommit1PC s props muts).2 m.key =
      onePCCommitted (s m.key) props m := by
    rw [hms, applyModifies_eq, filter_flatMap_modifies, honly, flatMap_singleton]
    rfl
  rw [hrow]
  refine ⟨by rw [onePCCommitted_lock, hlock], ⟨(props.write m).reload, ?_, ?_, rfl, ?_⟩, ?_⟩
  · exact onePCCommitted_writes _ _ _
  · simp [write, hop, mutationOpToWriteType]
  · exact filter_shortValue hv
  · rw [onePCCommitted, modifies, foldl_append]
    exact putLargeValue_values hop hv props.startTS _

end

/-- **Committed values.**  A Put of a value on a key without a lock, that is committed where
nothing newer is, can be read from then on if and only if its value is not empty, or an
empty one stood in CF_DEFAULT already: after `Prewrite` and `Commit`, after
`PrewriteAsyncCommit` and `Commit`, and after `PrewriteAndCommit1PC`. -/
theorem readBack_iff (s : Store) (m : Mutation) (v : Value) (c : TimeStamp) (hop : m.op = .put)
    (hv : m.value = some v) (hlock : (s m.key).lock = none) (hnewer : NothingNewer (s m.key) c) :
    (∀ (props : PrewriteProps) (ms ms' : List Modify), prewrite s props m = .ok ms →
      commit (applyModifies s ms) m.key props.startTS c = .ok ms' →
      (ReadsBack (applyModifies (applyModifies s ms) ms') m.key v c ↔
        Survives (s m.key) props.startTS v)) ∧
    (∀ (props : AsyncCommitPrewriteProps) (ms ms' : List Modify),
      prewriteAsyncCommit s props m = .ok ms →
      commit (applyModifies s ms) m.key props.startTS c = .ok ms' →
      (ReadsBack (applyModifies (applyModifies s ms) ms') m.key v c ↔
        Survives (s m.key) props.startTS v)) ∧
    (∀ (props : OnePCProps) (muts : List Mutation), props.commitTS = c →
      muts.filter (fun m' => m'.key = m.key) = [m] →
      (prewriteAndCommit1PC s props muts).1.any Option.isSome = false →
      (ReadsBack (applyModifies s (prewriteAndCommit1PC s props muts).2) m.key v c ↔
        Survives (s m.key) props.startTS v)) := by
  refine ⟨fun props ms ms' h1 h2 => ?_, fun props ms ms' h1 h2 => ?_,
    fun props muts hc honly hok => ?_⟩
  · exact readBack_iff_of_holdsPut (holdsPut_of_prewrite hop hv hlock h1 h2) hnewer
  · exact readBack_iff_of_holdsPut (holdsPut_of_prewriteAsyncCommit hop hv hlock h1 h2) hnewer
  · subst hc
    exact readBack_iff_of_holdsPut (holdsPut_of_1PC hop hv hlock honly hok) hnewer

theorem readBack_iff_short : NothingNewer (Store.empty [1]) 9 ∧
      ReadsBack (applyModifies Store.empty
        (prewriteAndCommit1PC Store.empty { startTS := 5, commitTS := 9, primary := [1], lockTTL := 3 }
          [{ op := .put, key := [1], value := some [7] }]).2) [1] [7] 9 := by
  have hnewer : NothingNewer (Store.empty [1]) 9 := fun q hq => absurd hq (by simp [Store.empty])
  refine ⟨hnewer, ?_⟩
  exact ((readBack_iff Store.empty { op := .put, key := [1], value := some [7] } [7] 9 rfl rfl rfl
    hnewer).2.2 { startTS := 5, commitTS := 9, primary := [1], lockTTL := 3 }
      [{ op := .put, key := [1], value := some [7] }] rfl rfl rfl).mpr (by decide)

theorem readBack_empty :
    (∃ ms ms', prewrite Store.empty { startTS := 5, primary := [1], lockTTL := 3 }
        { op := .put, key := [1], value := some [] } = .ok ms ∧
      commit (applyModifies Store.empty ms) [1] 5 9 = .ok ms' ∧
      PointGetter.get { ts := 9 } (applyModifies (applyModifies Store.empty ms) ms') [1] =
        .ok none) ∧ (∃ ms ms', prewriteAsyncCommit Store.empty
        { startTS := 5, primary := [1], lockTTL := 3, useAsyncCommit := true }
        { op := .put, key := [1], value := some [] } = .ok ms ∧
      commit (applyModifies Store.empty ms) [1] 5 9 = .ok ms' ∧
      PointGetter.get { ts := 9 } (applyModifies (applyModifies Store.empty ms) ms') [1] =
        .ok none) ∧ ∃ ms, prewriteAndCommit1PC Store.empty
        { startTS := 5, commitTS := 9, primary := [1], lockTTL := 3 }
        [{ op := .put, key := [1], value := some [] }] = ([none], ms) ∧
      PointGetter.get { ts := 9 } (applyModifies Store.empty ms) [1] = .ok none :=
  ⟨⟨_, _, rfl, rfl, rfl⟩, ⟨_, _, rfl, rfl, rfl⟩, _, rfl, rfl⟩

end Txn
