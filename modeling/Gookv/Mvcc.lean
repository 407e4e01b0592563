/-
The multi-version storage layer (`internal/storage/mvcc`).
-/
import Gookv.TxnTypes
import Gookv.Versions

open Txntypes

namespace Mvcc

open Function

open List Option Versions

structure Row where
  lock : Option Lock := none
  writes : Versions TimeStamp Write := Versions.empty
  values : TimeStamp → Option Value := fun _ => none

abbrev Store := Key → Row

def Store.empty : Store := fun _ => {}

def seekBound : ℕ := 32

def loadLock (snap : Store) (key : Key) : Option Lock := (snap key).lock

def seekWrite (snap : Store) (key : Key) (ts : TimeStamp) : Option (TimeStamp × Write) :=
  (snap key).writes.seek ts

/-- The loop of `GetWrite`; every pass moves to an older version. -/
def getWriteLoop (chain : Versions TimeStamp Write) :
    ℕ → List (TimeStamp × Write) → Option (TimeStamp × Write)
  | 0, _ => none
  | _ + 1, [] => none
  | fuel + 1, (commitTS, write) :: rest =>
    match write.writeType with
    | .put => some (commitTS, write)
    | .delete => none
    | .lock | .rollback =>
      if seekBound ≤ write.lastChange.estimatedVersions ∧ write.lastChange.ts ≠ 0 then
        getWriteLoop chain fuel (chain.upTo write.lastChange.ts)
      else getWriteLoop chain fuel rest

def getWrite (snap : Store) (key : Key) (ts : TimeStamp) : Option (TimeStamp × Write) :=
  let chain := (snap key).writes
  getWriteLoop chain (chain.entries.length + 1) (chain.upTo ts)

/-- The loop of `GetTxnCommitRecord`, down to the first record before the start timestamp. -/
def findTxnRecord (startTS : TimeStamp) :
    List (TimeStamp × Write) → Option (TimeStamp × Write)
  | [] => none
  | (commitTS, write) :: rest =>
    if write.startTS = startTS then some (commitTS, write)
    else if commitTS < startTS then none
    else findTxnRecord startTS rest

def getTxnCommitRecord (snap : Store) (key : Key) (startTS : TimeStamp) :
    Option (TimeStamp × Write) :=
  findTxnRecord startTS ((snap key).writes.upTo tsMax)

def getValue (snap : Store) (key : Key) (startTS : TimeStamp) : Option Value :=
  (snap key).values startTS

/-! ### What the reads find -/

variable {k : Key} {s s' : Store} {t ts : TimeStamp} {q : TimeStamp × Write}

theorem mem_of_findTxnRecord :
    ∀ {l : List (TimeStamp × Write)}, findTxnRecord t l = some q → q ∈ l ∧ q.2.startTS = t
  | [], h => by simp [findTxnRecord] at h
  | (c, w) :: l, h => by
    rw [findTxnRecord] at h
    split at h
    · rename_i hw
      rw [Option.some_inj] at h
      subst h
      exact ⟨by simp, hw⟩
    · split at h
      · exact absurd h (by simp)
      · obtain ⟨h1, h2⟩ := mem_of_findTxnRecord h
        exact ⟨mem_cons_of_mem _ h1, h2⟩

theorem findTxnRecord_ne_none :
    ∀ {l : List (TimeStamp × Write)}, (l.Pairwise fun a b => b.1 < a.1) → q ∈ l →
      q.2.startTS = t → t ≤ q.1 → findTxnRecord t l ≠ none
  | [], _, hq, _, _ => absurd hq (by simp)
  | (c, w) :: l, hl, hq, hqt, htq => by
    obtain ⟨hc, hl'⟩ := List.pairwise_cons.mp hl
    rw [findTxnRecord]
    by_cases hw : w.startTS = t
    · rw [if_pos hw]
      simp
    · rw [if_neg hw]
      have hq' : q ∈ l := by
        rcases mem_cons.mp hq with rfl | h
        · exact absurd hqt hw
        · exact h
      rw [if_neg (not_lt.mpr (htq.trans (hc q hq').le))]
      exact findTxnRecord_ne_none hl' hq' hqt htq

theorem findTxnRecord_eq_some_iff :
    ∀ {l : List (TimeStamp × Write)}, (l.Pairwise fun a b => b.1 < a.1) →
      (findTxnRecord t l = some q ↔ q ∈ l ∧ q.2.startTS = t ∧
        ∀ r ∈ l, q.1 < r.1 → r.2.startTS ≠ t ∧ t ≤ r.1)
  | [], _ => by simp [findTxnRecord]
  | (c, w) :: l, hl => by
    obtain ⟨hc, hl'⟩ := List.pairwise_cons.mp hl
    rw [findTxnRecord]
    by_cases hw : w.startTS = t
    · rw [if_pos hw, Option.some_inj]
      constructor
      · rintro rfl
        refine ⟨by simp, hw, fun r hr hlt => ?_⟩
        rcases List.mem_cons.mp hr with rfl | hr
        · exact absurd hlt (lt_irrefl _)
        · exact absurd (hc r hr) hlt.not_gt
      · rintro ⟨hq, -, hall⟩
        rcases List.mem_cons.mp hq with rfl | hq
        · rfl
        · exact absurd hw (hall (c, w) (by simp) (hc q hq)).1
    · rw [if_neg hw]
      by_cases hct : c < t
      · rw [if_pos hct]
        refine ⟨fun h => absurd h (by simp), ?_⟩
        rintro ⟨hq, hqt, hall⟩
        rcases List.mem_cons.mp hq with rfl | hq
        · exact absurd hqt hw
        · exact absurd hct (not_lt.mpr (hall (c, w) (by simp) (hc q hq)).2)
      · rw [if_neg hct, findTxnRecord_eq_some_iff hl']
        constructor
        · rintro ⟨hq, hqt, hall⟩
          refine ⟨mem_cons_of_mem _ hq, hqt, fun r hr hlt => ?_⟩
          rcases List.mem_cons.mp hr with rfl | hr
          · exact ⟨hw, not_lt.mp hct⟩
          · exact hall r hr hlt
        · rintro ⟨hq, hqt, hall⟩
          rcases List.mem_cons.mp hq with rfl | hq
          · exact absurd hqt hw
          · exact ⟨hq, hqt, fun r hr => hall r (mem_cons_of_mem _ hr)⟩

theorem mem_upTo_tsMax {v : Versions TimeStamp Write} : q ∈ v.upTo tsMax ↔ q ∈ v.entries := by
  rw [mem_upTo]
  exact and_iff_left (le_tsMax q.1)

theorem mem_of_getTxnCommitRecord (h : getTxnCommitRecord s k t = some q) :
    q ∈ (s k).writes.entries ∧ q.2.startTS = t := by
  obtain ⟨h1, h2⟩ := mem_of_findTxnRecord h
  exact ⟨mem_upTo_tsMax.mp h1, h2⟩

theorem getTxnCommitRecord_eq_some_iff : getTxnCommitRecord s k t = some q ↔
      q ∈ (s k).writes.entries ∧ q.2.startTS = t ∧
        ∀ r ∈ (s k).writes.entries, q.1 < r.1 → r.2.startTS ≠ t ∧ t ≤ r.1 := by
  rw [getTxnCommitRecord, findTxnRecord_eq_some_iff ((s k).writes.upTo_sorted tsMax)]
  simp only [mem_upTo_tsMax]

theorem getTxnCommitRecord_eq_none (h : getTxnCommitRecord s k t = none)
    (hq : q ∈ (s k).writes.entries) (htq : t ≤ q.1) : q.2.startTS ≠ t := fun hqt =>
  findTxnRecord_ne_none ((s k).writes.upTo_sorted tsMax) (mem_upTo_tsMax.mpr hq) hqt htq h

def JumpsSound (r : Row) : Prop :=
  ∀ q ∈ r.writes.entries, ¬q.2.isDataChanged →
    seekBound ≤ q.2.lastChange.estimatedVersions ∧ q.2.lastChange.ts ≠ 0 →
    q.2.lastChange.ts < q.1 ∧
      ∀ r' ∈ r.writes.entries, r'.2.isDataChanged → r'.1 < q.1 → r'.1 ≤ q.2.lastChange.ts

theorem upTo_of_jump {r : Row} (h : JumpsSound r) {c : TimeStamp} {w : Write}
    {rest : List (TimeStamp × Write)} (hsuf : (c, w) :: rest <:+ r.writes.entries)
    (hw : ¬w.isDataChanged)
    (hj : seekBound ≤ w.lastChange.estimatedVersions ∧ w.lastChange.ts ≠ 0) :
    ∃ skipped, rest = skipped ++ r.writes.upTo w.lastChange.ts ∧
      ∀ q ∈ skipped, ¬q.2.isDataChanged := by
  obtain ⟨hlt, hskip⟩ := h (c, w) (hsuf.mem (by simp)) hw hj
  have hnot : (c, w) ∉ r.writes.upTo w.lastChange.ts := fun hm =>
    absurd (mem_upTo.mp hm).2 (not_le.mpr hlt)
  have hsuf' := r.writes.upTo_suffix w.lastChange.ts
  have hrest : r.writes.upTo w.lastChange.ts <:+ rest := by
    rcases suffix_or_suffix_of_suffix hsuf' hsuf with hs | hs
    · rcases suffix_cons_iff.mp hs with heq | hs
      · exact absurd (heq ▸ mem_cons_self) hnot
      · exact hs
    · exact absurd (hs.mem (by simp)) hnot
  obtain ⟨skipped, rfl⟩ := hrest
  refine ⟨skipped, rfl, fun q hq hd => ?_⟩
  have hmem : q ∈ r.writes.entries := hsuf.mem (by simp [hq])
  have hsorted := Pairwise.sublist hsuf.sublist r.writes.sorted
  -- a skipped record is above the place where the jump lands
  have hle := hskip q hmem hd ((pairwise_cons.mp hsorted).1 q (by simp [hq]))
  have hin : q ∈ r.writes.upTo w.lastChange.ts := mem_upTo.mpr ⟨hmem, hle⟩
  have hself := (pairwise_append.mp (pairwise_cons.mp hsorted).2).2.2 q hq q hin
  exact absurd hself (lt_irrefl _)

theorem getWriteLoop_eq_find {r : Row} (h : JumpsSound r) :
    ∀ {fuel : ℕ} {l : List (TimeStamp × Write)}, l.length < fuel → l <:+ r.writes.entries →
      getWriteLoop r.writes fuel l =
        (l.find? fun q => q.2.isDataChanged).filter fun q => q.2.writeType = .put
  | 0, _, hlen, _ => absurd hlen (by simp)
  | _ + 1, [], _, _ => rfl
  | fuel + 1, (c, w) :: rest, hlen, hsuf => by
    have hlen' : rest.length < fuel := by simpa using hlen
    have hrest : rest <:+ r.writes.entries := (suffix_cons _ _).trans hsuf
    by_cases hd : w.isDataChanged
    · rw [getWriteLoop]
      simp only [find?_cons, hd]
      cases hty : w.writeType with
      | put | delete => simp [Option.filter, hty]
      | lock | rollback => simp [Write.isDataChanged, hty] at hd
    · simp only [find?_cons, hd]
      have hstep : getWriteLoop r.writes (fuel + 1) ((c, w) :: rest) =
          if seekBound ≤ w.lastChange.estimatedVersions ∧ w.lastChange.ts ≠ 0 then
            getWriteLoop r.writes fuel (r.writes.upTo w.lastChange.ts)
          else getWriteLoop r.writes fuel rest := by
        rw [getWriteLoop]
        cases hty : w.writeType with
        | put | delete => simp [Write.isDataChanged, hty] at hd
        | lock => rfl
        | rollback => rfl
      rw [hstep]
      by_cases hj : seekBound ≤ w.lastChange.estimatedVersions ∧ w.lastChange.ts ≠ 0
      · rw [if_pos hj]
        obtain ⟨skipped, hsplit, hno⟩ := upTo_of_jump h hsuf hd hj
        have hfind : skipped.find? (fun q => q.2.isDataChanged) = none := by
          simpa using hno
        have hlen'' : (r.writes.upTo w.lastChange.ts).length < fuel := by
          rw [hsplit, length_append] at hlen'
          omega
        rw [getWriteLoop_eq_find h hlen'' (r.writes.upTo_suffix _), hsplit, find?_append,
          hfind, Option.none_or]
      · rw [if_neg hj, getWriteLoop_eq_find h hlen' hrest]

theorem getWrite_eq_newest (h : JumpsSound (s k)) :
    getWrite s k ts = ((s k).writes.newest (fun q => q.2.isDataChanged) ts).filter
      fun q => q.2.writeType = .put :=
  getWriteLoop_eq_find h (Nat.lt_succ_of_le ((s k).writes.upTo_suffix ts).length_le)
    ((s k).writes.upTo_suffix ts)

theorem getWrite_eq_find (h : ∀ q ∈ (s k).writes.entries, q.2.lastChange.ts = 0) :
    getWrite s k ts = ((s k).writes.newest (fun q => q.2.isDataChanged) ts).filter
      fun q => q.2.writeType = .put :=
  getWrite_eq_newest fun q hq _ hj => absurd (h q hq) hj.2

inductive Modify
  | putLock (key : Key) (lock : Lock)
  | unlockKey (key : Key)
  | putValue (key : Key) (startTS : TimeStamp) (value : Value)
  | deleteValue (key : Key) (startTS : TimeStamp)
  | putWrite (key : Key) (commitTS : TimeStamp) (write : Write)
  | deleteWrite (key : Key) (commitTS : TimeStamp)

def Modify.key : Modify → Key
  | .putLock key _ => key
  | .unlockKey key => key
  | .putValue key _ _ => key
  | .deleteValue key _ => key
  | .putWrite key _ _ => key
  | .deleteWrite key _ => key

def Row.apply (r : Row) : Modify → Row
  | .putLock _ lock => { r with lock := some lock.reload }
  | .unlockKey _ => { r with lock := none }
  | .putValue _ startTS value =>
    { r with values := update r.values startTS (some value) }
  | .deleteValue _ startTS =>
    { r with values := update r.values startTS none }
  | .putWrite _ commitTS write => { r with writes := r.writes.put commitTS write.reload }
  | .deleteWrite _ commitTS => { r with writes := r.writes.erase commitTS }

def Store.apply (s : Store) (m : Modify) : Store :=
  update s m.key ((s m.key).apply m)

def applyModifies (s : Store) (modifies : List Modify) : Store :=
  modifies.foldl Store.apply s

@[simp] theorem applyModifies_nil (s : Store) : applyModifies s [] = s := rfl

theorem Store.apply_of_ne {m : Modify} (h : m.key ≠ k) : s.apply m k = s k :=
  update_of_ne (Ne.symm h) _ _

theorem applyModifies_eq (ms : List Modify) (s : Store) (k : Key) :
    applyModifies s ms k = (ms.filter fun m => m.key = k).foldl Row.apply (s k) := by
  induction ms generalizing s with
  | nil => rfl
  | cons m ms ih =>
    have hcons : applyModifies s (m :: ms) = applyModifies (s.apply m) ms := rfl
    rw [hcons, ih]
    by_cases h : m.key = k
    · rw [filter_cons_of_pos (by simpa using h), foldl_cons]
      subst h
      rw [Store.apply, update_self]
    · rw [filter_cons_of_neg (by simpa using h), Store.apply_of_ne h]

variable {ms : List Modify}

theorem applyModifies_of_forall_ne (h : ∀ m ∈ ms, m.key ≠ k) : applyModifies s ms k = s k := by
  rw [applyModifies_eq, filter_eq_nil_iff.mpr (by simpa using h)]
  rfl

theorem applyModifies_of_forall_eq
    (h : ∀ m ∈ ms, m.key = k) : applyModifies s ms k = ms.foldl Row.apply (s k) := by
  rw [applyModifies_eq, filter_eq_self.mpr (by simpa using h)]

theorem applyModifies_induction {P : Row → Prop}
    (h0 : P (s k)) (hstep : ∀ m ∈ ms, m.key = k → ∀ r, P r → P (r.apply m)) :
    P (applyModifies s ms k) := by
  rw [applyModifies_eq]
  refine foldlRecOn (motive := P) _ _ h0 fun r hr m hm => ?_
  obtain ⟨hm1, hm2⟩ := mem_filter.mp hm
  exact hstep m hm1 (by simpa using hm2) r hr

/-! ### Point reads -/

inductive IsolationLevel
  | si
  | rc
  deriving DecidableEq

structure LockError where
  key : Key
  lock : Lock
  deriving DecidableEq

structure PointGetter where
  ts : TimeStamp
  isolationLevel : IsolationLevel := .si
  bypassLocks : List TimeStamp := []

def PointGetter.blockingLock (pg : PointGetter) (snap : Store) (key : Key) : Option Lock :=
  if pg.isolationLevel = .si then
    (loadLock snap key).filter fun lock =>
      lock.startTS ≤ pg.ts ∧ lock.lockType ≠ .pessimistic ∧ lock.startTS ∉ pg.bypassLocks
  else none

def writeValue (snap : Store) (key : Key) (write : Write) : Option Value :=
  match write.shortValue with
  | some value => some value
  | none => getValue snap key write.startTS

def visibleValue (snap : Store) (key : Key) (ts : TimeStamp) : Option Value :=
  match getWrite snap key ts with
  | none => none
  | some (_, write) => writeValue snap key write

def PointGetter.get (pg : PointGetter) (snap : Store) (key : Key) :
    Except LockError (Option Value) :=
  match pg.blockingLock snap key with
  | some lock => .error ⟨key, lock⟩
  | none => .ok (visibleValue snap key pg.ts)

theorem visibleValue_of_row (hw : (s' k).writes = (s k).writes)
    (hv : (s' k).values = (s k).values) (ts : TimeStamp) :
    visibleValue s' k ts = visibleValue s k ts := by
  have hget : getWrite s' k ts = getWrite s k ts := by
    unfold getWrite
    rw [hw]
  unfold visibleValue writeValue getValue
  rw [hget, hv]

theorem PointGetter.get_of_unlocked (pg : PointGetter)
    (h : (s k).lock = none) : pg.get s k = .ok (visibleValue s k pg.ts) := by
  have hb : pg.blockingLock s k = none := by simp [blockingLock, loadLock, h]
  rw [get, hb]

def NoJumps (r : Row) : Prop := ∀ q ∈ r.writes.entries, q.2.lastChange.ts = 0

theorem NoJumps.put {r : Row} (h : NoJumps r) {w : Write} (hw : w.lastChange.ts = 0)
    (c : TimeStamp) : NoJumps { r with writes := r.writes.put c w } := by
  intro q hq
  rcases mem_put.mp hq with rfl | ⟨-, hq⟩
  · exact hw
  · exact h q hq

theorem visibleValue_congr (hj : NoJumps (s k)) (hj' : NoJumps (s' k))
    (hmem : ∀ q, q.1 ≤ ts → q.2.isDataChanged →
      (q ∈ (s' k).writes.entries ↔ q ∈ (s k).writes.entries))
    (hval : ∀ q ∈ (s k).writes.entries, (s' k).values q.2.startTS = (s k).values q.2.startTS) :
    visibleValue s' k ts = visibleValue s k ts := by
  have hnew : (s' k).writes.newest (fun q => q.2.isDataChanged) ts =
      (s k).writes.newest (fun q => q.2.isDataChanged) ts := newest_congr hmem
  unfold visibleValue
  rw [getWrite_eq_find hj, getWrite_eq_find hj', hnew]
  cases hf : ((s k).writes.newest (fun q => q.2.isDataChanged) ts).filter
      fun q => q.2.writeType = .put with
  | none => rfl
  | some q =>
    obtain ⟨hq, -⟩ := filter_eq_some_iff.mp hf
    have hq' := (newest_eq_some_iff.mp hq).1.1
    unfold writeValue getValue
    dsimp only
    rw [hval q hq']

theorem get_eq_ok {v : Option Value} (h : PointGetter.get { ts := ts } s k = .ok v) :
    v = visibleValue s k ts ∧ ∀ lock, (s k).lock = some lock → lock.startTS ≤ ts →
      lock.lockType = .pessimistic := by
  unfold PointGetter.get at h
  cases hb : PointGetter.blockingLock { ts := ts } s k with
  | some lock => simp [hb] at h
  | none =>
    rw [hb] at h
    refine ⟨(Except.ok.inj h).symm, fun lock hl hts => ?_⟩
    by_contra hty
    simp [PointGetter.blockingLock, loadLock, hl, Option.filter, hts, hty] at hb

end Mvcc
