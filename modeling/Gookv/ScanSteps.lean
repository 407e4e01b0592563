/-
How a scan moves over the records.
-/
import Gookv.ScanSpec

open Txntypes

namespace Mvcc

open List Scanner ScannerConfig

def WriteEntry.Before (e e' : WriteEntry) : Prop :=
  e.key < e'.key ∨ e.key = e'.key ∧ e'.commitTS < e.commitTS

theorem lt_append_zero_iff : ∀ {k k' : Key}, k' < k ++ [0] ↔ ¬k < k'
  | [], [] => by decide
  | [], b :: l => by simp [List.cons_lt_cons_iff]
  | a :: k, [] => by simp
  | a :: k, b :: l => by
    rw [List.cons_append, List.cons_lt_cons_iff, List.cons_lt_cons_iff, lt_append_zero_iff]
    rcases lt_trichotomy a b with h | rfl | h
    · simp [h, h.not_gt, h.ne']
    · simp
    · simp [h, h.not_gt, h.ne']

variable {rs' : List (TimeStamp × Write)} {t : TimeStamp} {e : WriteEntry} {k : Key}
  {rs : List (TimeStamp × Write)} {ks : List Key} {l : LockEntry} {lc : Option (Cursor LockEntry)}
  {lock : Lock}

theorem reached_tsMax : reached k tsMax e = decide (k ≤ e.key) := by
  unfold reached
  rw [decide_eq_decide, and_iff_left (le_tsMax _), le_iff_lt_or_eq (b := e.key)]
  exact or_congr_right eq_comm

theorem reached_append_zero : reached (k ++ [0]) tsMax e = decide (k < e.key) := by
  rw [reached_tsMax, decide_eq_decide, ← not_lt, lt_append_zero_iff, not_not]

theorem reached_of_key_lt (h : e.key < k) : reached k t e = false := by
  have h1 : ¬k < e.key := h.not_gt
  have h2 : e.key ≠ k := h.ne
  simp [reached, h1, h2]

theorem reached_of_lt_key (h : k < e.key) : reached k t e = true := by
  simp [reached, h]

theorem reached_of_before {ts : TimeStamp} {w : Write}
    (h : e.Before ⟨k, ts, w⟩) (ht : t < ts) : reached k t e = false := by
  rcases h with h | ⟨hk, hts⟩
  · exact reached_of_key_lt h
  · have h1 : ¬k < e.key := by
      rw [hk]
      exact lt_irrefl _
    have h2 : ¬e.commitTS ≤ t := not_le.mpr (ht.trans hts)
    simp [reached, h1, h2]

theorem mem_versions :
    e ∈ versions k rs ↔ e.key = k ∧ (e.commitTS, e.write) ∈ rs := by
  constructor
  · intro he
    obtain ⟨q, hq, rfl⟩ := mem_map.mp he
    exact ⟨rfl, hq⟩
  · rintro ⟨rfl, hq⟩
    exact mem_map.mpr ⟨_, hq, rfl⟩

theorem versions_pairwise :
    (versions k rs).Pairwise WriteEntry.Before ↔ rs.Pairwise fun a b => b.1 < a.1 := by
  rw [versions, pairwise_map]
  simp [WriteEntry.Before]

variable {snap : Snapshot} {cfg : ScannerConfig}

theorem mem_records {q : TimeStamp × Write} : q ∈ records snap cfg k ↔
      q ∈ (snap.rows k).writes.entries ∧ cfg.coversWrite k q.1 = true :=
  mem_filter

theorem records_pairwise (k : Key) : (records snap cfg k).Pairwise fun a b => b.1 < a.1 :=
  (snap.rows k).writes.sorted.filter _

theorem key_mem_of_mem_recordsOf (h : e ∈ recordsOf snap cfg ks) : e.key ∈ ks := by
  obtain ⟨k, hk, he⟩ := mem_flatMap.mp h
  rw [(mem_versions.mp he).1]
  exact hk

theorem recordsOf_pairwise (hks : ks.Pairwise (· < ·)) :
    (recordsOf snap cfg ks).Pairwise WriteEntry.Before := by
  refine pairwise_flatMap.mpr ⟨fun k _ => versions_pairwise.mpr (records_pairwise k), ?_⟩
  refine hks.imp fun {k k'} hkk e he e' he' => .inl ?_
  rw [(mem_versions.mp he).1, (mem_versions.mp he').1]
  exact hkk

theorem exists_split (h : rs.Pairwise fun a b => b.1 < a.1)
    (t : TimeStamp) : ∃ newer older, rs = newer ++ older ∧ (∀ q ∈ newer, t < q.1) ∧
      ∀ q ∈ older, q.1 ≤ t := by
  induction rs with
  | nil => exact ⟨[], [], rfl, by simp, by simp⟩
  | cons q rs ih =>
    obtain ⟨hq, h'⟩ := pairwise_cons.mp h
    by_cases hqt : q.1 ≤ t
    · refine ⟨[], q :: rs, rfl, by simp, forall_mem_cons.mpr ⟨hqt, fun p hp => ?_⟩⟩
      exact (hq p hp).le.trans hqt
    · obtain ⟨newer, older, rfl, hnew, hold⟩ := ih h'
      exact ⟨q :: newer, older, rfl, forall_mem_cons.mpr ⟨not_le.mp hqt, hnew⟩, hold⟩

/-- The cursor stands at the versions `rs` of a key, between `A` and those of later keys. -/
structure AtVersions (c : Cursor WriteEntry) (A : List WriteEntry) (k : Key)
    (rs : List (TimeStamp × Write)) (B : List WriteEntry) : Prop where
  pos : c.At A (versions k rs ++ B)
  sorted : (A ++ (versions k rs ++ B)).Pairwise WriteEntry.Before
  later : ∀ e ∈ B, k < e.key

namespace AtVersions

variable {c : Cursor WriteEntry} {A B : List WriteEntry} {k : Key} {q : TimeStamp × Write}
  {rs : List (TimeStamp × Write)}

theorem cur_cons (h : AtVersions c A k (q :: rs) B) : c.cur = some ⟨k, q.1, q.2⟩ := h.pos.cur

theorem cur_nil (h : AtVersions c A k [] B) (he : c.cur = some e) : e.key ≠ k := by
  have hB : B.head? = some e := h.pos.cur.symm.trans he
  exact (h.later e (mem_of_head? hB)).ne'

theorem next (h : AtVersions c A k (q :: rs) B) :
    AtVersions c.next (A ++ [⟨k, q.1, q.2⟩]) k rs B where
  pos := h.pos.next
  sorted := by simpa [versions] using h.sorted
  later := h.later

theorem before (h : AtVersions c A k (q :: rs) B) : ∀ e ∈ A, e.Before ⟨k, q.1, q.2⟩ :=
  fun e he => (pairwise_append.mp h.sorted).2.2 e he _ (by simp [versions])

theorem rs_pairwise (h : AtVersions c A k rs B) : rs.Pairwise fun a b => b.1 < a.1 :=
  versions_pairwise.mp (pairwise_append.mp (pairwise_append.mp h.sorted).2.1).1

end AtVersions

theorem atVersions_seek {c : Cursor WriteEntry} {A B : List WriteEntry}
    (he : c.entries = A ++ (versions k (rs ++ rs') ++ B))
    (hsorted : (A ++ (versions k (rs ++ rs') ++ B)).Pairwise WriteEntry.Before)
    (hlater : ∀ e ∈ B, k < e.key) (hA : ∀ e ∈ A, reached k t e = false)
    (hrs : ∀ q ∈ rs, t < q.1) (hrs' : ∀ q ∈ rs', q.1 ≤ t) :
    AtVersions (c.seek (reached k t)) (A ++ versions k rs) k rs' B where
  pos := by
    refine Cursor.at_seek (he.trans (by simp [versions])) ?_ ?_
    · intro e he
      rcases mem_append.mp he with he | he
      · exact hA e he
      · obtain ⟨hk, hq⟩ := mem_versions.mp he
        have hts : ¬e.commitTS ≤ t := not_le.mpr (hrs _ hq)
        simp [reached, hk, hts]
    · intro e he
      rcases mem_append.mp (mem_of_head? he) with he | he
      · obtain ⟨hk, hq⟩ := mem_versions.mp he
        have hts : e.commitTS ≤ t := hrs' _ hq
        simp [reached, hk, hts]
      · exact reached_of_lt_key (hlater e he)
  sorted := by simpa [versions] using hsorted
  later := hlater

theorem AtVersions.seek {c : Cursor WriteEntry} {A B : List WriteEntry}
    {q : TimeStamp × Write}
    (h : AtVersions c A k (q :: rs ++ rs') B) (hrs : ∀ p ∈ q :: rs, t < p.1)
    (hrs' : ∀ p ∈ rs', p.1 ≤ t) :
    AtVersions (c.seek (reached k t)) (A ++ versions k (q :: rs)) k rs' B :=
  atVersions_seek h.pos.entries_eq h.sorted h.later
    (fun e he => reached_of_before (h.before e he) (hrs q (by simp))) hrs hrs'

/-! ### The search for the visible version -/

theorem latest_append_of_forall (rs : List (TimeStamp × Write))
    (h : ∀ q ∈ rs, q.1 ≤ cfg.readTS → ¬q.2.isDataChanged) :
    latest cfg (rs ++ rs') = latest cfg rs' := by
  unfold latest
  rw [find?_append, find?_eq_none.mpr (by simpa using h), Option.none_or]

theorem versionLoop_spec {c : Cursor WriteEntry}
    {A B : List WriteEntry} (h : AtVersions c A k rs B) (hts : ∀ q ∈ rs, q.1 ≤ cfg.readTS)
    (hrs : ∀ q ∈ rs, q ∈ (snap.rows k).writes.entries) :
    ∃ n c', versionLoop snap cfg k n c = some (found snap cfg k rs, c') ∧
      ((latest cfg rs = none ∧ AtVersions c' (A ++ versions k rs) k [] B) ∨
        latest cfg rs ≠ none ∧ ∃ c₁ A₁ q rs₁, AtVersions c₁ A₁ k (q :: rs₁) B ∧
          A₁ ++ versions k (q :: rs₁) = A ++ versions k rs ∧
          c' = moveWriteCursorToNextUserKey cfg k c₁) := by
  induction hlen : rs.length using Nat.strong_induction_on generalizing rs c A with
  | _ len ih =>
    cases rs with
    | nil =>
      refine ⟨1, c, ?_, .inl ⟨rfl, by simpa [versions] using h⟩⟩
      rw [versionLoop]
      cases hc : c.cur with
      | none => rfl
      | some e => exact if_pos (h.cur_nil hc)
    | cons q rs =>
      obtain ⟨hq, hts'⟩ := forall_mem_cons.mp hts
      obtain ⟨hrow, hrs'⟩ := forall_mem_cons.mp hrs
      by_cases hd : q.2.isDataChanged
      · -- a Put or a Delete ends the search here
        have hlatest : latest cfg (q :: rs) = some q := by simp [latest, hq, hd]
        refine ⟨1, moveWriteCursorToNextUserKey cfg k c, ?_, 
          .inr ⟨by simp [hlatest], c, A, q, rs, h, rfl, rfl⟩⟩
        rw [versionLoop, h.cur_cons, found, hlatest]
        dsimp only
        rw [if_neg (by simp), if_neg (not_lt.mpr hq)]
        cases hty : q.2.writeType with
        | put => simp
        | delete => simp
        | lock | rollback => simp [Write.isDataChanged, hty] at hd
      · -- otherwise it goes on at an older version and skips no data record
        obtain ⟨skipped, rest, hsplit, hskip, hat⟩ : ∃ skipped rest, rs = skipped ++ rest ∧
            (∀ p ∈ skipped, ¬p.2.isDataChanged) ∧
            AtVersions (skipVersion k q.2 c) (A ++ versions k (q :: skipped)) k rest B := by
          unfold skipVersion
          by_cases hj : seekBound ≤ q.2.lastChange.estimatedVersions ∧ q.2.lastChange.ts ≠ 0
          · rw [if_pos hj]
            obtain ⟨hlt, hno⟩ := snap.jumps k q hrow hd hj
            obtain ⟨hbelow, hpw⟩ := pairwise_cons.mp h.rs_pairwise
            obtain ⟨skipped, rest, rfl, hnew, hold⟩ := exists_split hpw q.2.lastChange.ts
            refine ⟨skipped, rest, rfl, fun p hp hpd => ?_, ?_⟩
            · have hmem : p ∈ skipped ++ rest := mem_append_left _ hp
              exact absurd (hno p (hrs' p hmem) hpd (hbelow p hmem)) (not_le.mpr (hnew p hp))
            · exact h.seek (forall_mem_cons.mpr ⟨hlt, hnew⟩) hold
          · rw [if_neg hj]
            exact ⟨[], rs, rfl, by simp, h.next⟩
        subst hsplit
        have hlatest : latest cfg (q :: (skipped ++ rest)) = latest cfg rest := by
          refine latest_append_of_forall (q :: skipped) fun p hp _ => ?_
          rcases mem_cons.mp hp with rfl | hp
          · exact hd
          · exact hskip p hp
        have hpos : A ++ versions k (q :: skipped) ++ versions k rest =
            A ++ versions k (q :: (skipped ++ rest)) := by simp [versions]
        have hlt : rest.length < len := by
          rw [← hlen, length_cons, length_append]
          omega
        obtain ⟨n, c', hloop, hc'⟩ := ih _ hlt hat
          (fun p hp => hts' p (mem_append_right _ hp))
          (fun p hp => hrs' p (mem_append_right _ hp)) rfl
        rw [hpos] at hc'
        refine ⟨n + 1, c', ?_, hlatest ▸ hc'⟩
        rw [versionLoop, h.cur_cons]
        dsimp only
        rw [if_neg (by simp), if_neg (not_lt.mpr hq)]
        have hfound : found snap cfg k (q :: (skipped ++ rest)) = found snap cfg k rest := by
          rw [found, found, hlatest]
        rw [hfound, ← hloop]
        cases hty : q.2.writeType with
        | put | delete => simp [Write.isDataChanged, hty] at hd
        | lock => rfl
        | rollback => rfl

def heldLock (snap : Snapshot) (cfg : ScannerConfig) (k : Key) : Option Lock :=
  if cfg.isolationLevel = .si then boundedLock snap cfg k else none

def locksOf (snap : Snapshot) (cfg : ScannerConfig) (ks : List Key) : List LockEntry :=
  ks.filterMap fun k => (heldLock snap cfg k).map fun lock => ⟨k, lock⟩

theorem blocking_eq (k : Key) : blocking snap cfg k = (heldLock snap cfg k).filter fun lock =>
    lock.startTS ≤ cfg.readTS ∧ lock.lockType ≠ .pessimistic ∧
      lock.startTS ∉ cfg.bypassLocks := by
  unfold blocking heldLock boundedLock PointGetter.blockingLock
  by_cases h1 : cfg.isolationLevel = .si <;> by_cases h2 : cfg.inRange k = true <;>
    simp [h1, h2, pointGetter, loadLock]

theorem key_mem_of_mem_locksOf (h : l ∈ locksOf snap cfg ks) :
    l.key ∈ ks := by
  obtain ⟨k, hk, hl⟩ := mem_filterMap.mp h
  obtain ⟨lock, -, rfl⟩ := Option.map_eq_some_iff.mp hl
  exact hk

def LocksAhead (cfg : ScannerConfig) : Option (Cursor LockEntry) → List LockEntry → Prop
  | lc, [] => lc.bind Cursor.cur = none
  | lc, l :: L => lc.bind Cursor.cur = some l ∧ LocksAhead cfg (lc.map cfg.advance) L

theorem LocksAhead.cur {L : List LockEntry}
    (h : LocksAhead cfg lc L) : lc.bind Cursor.cur = L.head? := by
  cases L with
  | nil => exact h
  | cons l L => exact h.1

theorem LocksAhead.key_mem
    (h : LocksAhead cfg lc (locksOf snap cfg ks)) (hl : lc.bind Cursor.cur = some l) : l.key ∈ ks :=
  key_mem_of_mem_locksOf (mem_of_head? (h.cur.symm.trans hl))

theorem inRange_of_heldLock (h : heldLock snap cfg k = some lock) :
    cfg.inRange k = true := by
  unfold heldLock boundedLock at h
  by_contra hk
  simp [hk] at h

theorem withinBound_of_inRange (h : cfg.inRange k = true) : cfg.withinBound k = true := by
  unfold inRange at h
  unfold withinBound
  rw [Bool.and_eq_true] at h
  split
  · exact h.1
  · exact h.2

/-! ### A pass -/

variable {s : Scanner} {k : Key} {ks : List Key}

theorem pass_exhausted (hw : s.writeCursor.cur = none) (hl : LocksAhead cfg s.lockCursor []) :
    Passes snap cfg s (some .exhausted) s := by
  refine ⟨0, ?_⟩
  have hl' : s.lockCursor.bind Cursor.cur = none := hl
  rw [Scanner.pass, Scanner.currentUserKey, hw, hl']

theorem pass_at_lock (hk : heldLock snap cfg k = some lock)
    (hw : ∀ e, s.writeCursor.cur = some e → cfg.Before k e.key)
    (hl : LocksAhead cfg s.lockCursor (locksOf snap cfg (k :: ks)))
    (hks : ∀ j ∈ ks, cfg.Before k j) : Passes snap cfg s none (s.advanceLockCursor cfg) ∧
      LocksAhead cfg (s.advanceLockCursor cfg).lockCursor (locksOf snap cfg ks) := by
  have hcons : locksOf snap cfg (k :: ks) = ⟨k, lock⟩ :: locksOf snap cfg ks := by
    simp [locksOf, hk]
  rw [hcons] at hl
  obtain ⟨hcur, hrest⟩ := hl
  have hirr : ∀ j, cfg.Before k j → j ≠ k := fun j hj hjk => by
    subst hjk
    exact cfg.before_asymm j j hj hj
  have huser : s.currentUserKey cfg = some (k, false, true, s.advanceLockCursor cfg) := by
    rw [Scanner.currentUserKey, hcur]
    cases hc : s.writeCursor.cur with
    | none => rfl
    | some e =>
      have hke := hw e hc
      have hnot : ¬cfg.Before e.key k := cfg.before_asymm _ _ hke
      unfold ScannerConfig.Before at hnot
      dsimp only
      rw [if_neg (hirr _ hke), if_neg hnot]
  have hlock : (s.advanceLockCursor cfg).handleLock cfg k =
      (none, s.advanceLockCursor cfg) := by
    rw [Scanner.handleLock]
    cases hc : (s.advanceLockCursor cfg).lockCursor.bind Cursor.cur with
    | none => rfl
    | some l => exact if_pos (hirr _ (hks _ (LocksAhead.key_mem hrest hc)))
  refine ⟨⟨0, ?_⟩, hrest⟩
  have hbound : cfg.withinBound k = true := withinBound_of_inRange (inRange_of_heldLock hk)
  rw [Scanner.pass, huser]
  simp only [hbound, hlock, if_true]
  rfl

theorem pass_without_lock (he : s.writeCursor.cur = some e) (hek : e.key = k)
    (hl : LocksAhead cfg s.lockCursor (locksOf snap cfg ks)) (hks : ∀ j ∈ ks, cfg.Before k j)
    (hbound : cfg.withinBound k = true) (n : ℕ) :
    s.pass snap cfg n = (handleWrite snap cfg n k s.writeCursor).map (s.conclude k) := by
  have huser : s.currentUserKey cfg = some (k, true, false, s) := by
    rw [Scanner.currentUserKey, he]
    cases hc : s.lockCursor.bind Cursor.cur with
    | none => rw [← hek]
    | some l =>
      have hkl := hks _ (LocksAhead.key_mem hl hc)
      have hne : e.key ≠ l.key := by
        intro heq
        rw [← heq, hek] at hkl
        exact cfg.before_asymm k k hkl hkl
      rw [← hek] at hkl ⊢
      unfold ScannerConfig.Before at hkl
      dsimp only
      rw [if_neg hne, if_pos hkl]
  rw [Scanner.pass, huser]
  simp [hbound]

theorem pass_at_write (he : s.writeCursor.cur = some e) (hek : e.key = k)
    (hl : LocksAhead cfg s.lockCursor (locksOf snap cfg (k :: ks)))
    (hks : ∀ j ∈ ks, cfg.Before k j) (hbound : cfg.withinBound k = true) :
    ∃ s₁ : Scanner, s₁.writeCursor = s.writeCursor ∧ s₁.isStarted = s.isStarted ∧
      LocksAhead cfg s₁.lockCursor (locksOf snap cfg ks) ∧
      ∀ n, s.pass snap cfg n = match blocking snap cfg k with
        | some lock => some (some (.failed k (.locked lock)), s₁)
        | none => (handleWrite snap cfg n k s.writeCursor).map (s₁.conclude k) := by
  cases hk : heldLock snap cfg k with
  | none =>
    have hcons : locksOf snap cfg (k :: ks) = locksOf snap cfg ks := by simp [locksOf, hk]
    rw [hcons] at hl
    refine ⟨s, rfl, rfl, hl, fun n => ?_⟩
    rw [blocking_eq, hk]
    exact pass_without_lock he hek hl hks hbound n
  | some lock =>
    have hcons : locksOf snap cfg (k :: ks) = ⟨k, lock⟩ :: locksOf snap cfg ks := by
      simp [locksOf, hk]
    rw [hcons] at hl
    obtain ⟨hcur, hrest⟩ := hl
    refine ⟨s.advanceLockCursor cfg, rfl, rfl, hrest, fun n => ?_⟩
    have huser : s.currentUserKey cfg = some (k, true, true, s) := by
      rw [Scanner.currentUserKey, he, hcur]
      dsimp only
      rw [if_pos hek, hek]
    have hlock : s.handleLock cfg k = (blocking snap cfg k, s.advanceLockCursor cfg) := by
      rw [Scanner.handleLock, hcur, blocking_eq, hk, Option.filter_some]
      dsimp only
      rw [if_neg (by simp)]
      by_cases hcond : lock.lockType ≠ .pessimistic ∧ lock.startTS ≤ cfg.readTS ∧
          lock.startTS ∉ cfg.bypassLocks
      · rw [if_pos hcond, if_pos (by simpa using ⟨hcond.2.1, hcond.1, hcond.2.2⟩)]
      · rw [if_neg hcond, if_neg (by simp only [decide_eq_true_eq]; tauto)]
    rw [Scanner.pass, huser]
    simp only [hbound, hlock, if_true]
    cases blocking snap cfg k with
    | some lock => rfl
    | none => rfl

theorem yields_of_locks_only (hks : ks.Pairwise cfg.Before) (hs : s.isStarted = true)
    (hw : s.writeCursor.cur = none) (hl : LocksAhead cfg s.lockCursor (locksOf snap cfg ks)) :
    Yields snap cfg s (some ([], none)) := by
  induction ks generalizing s with
  | nil => exact yields_exhausted hs (pass_exhausted hw hl)
  | cons k ks ih =>
    obtain ⟨hk, hks'⟩ := pairwise_cons.mp hks
    cases hlock : heldLock snap cfg k with
    | none =>
      have hsame : locksOf snap cfg (k :: ks) = locksOf snap cfg ks := by simp [locksOf, hlock]
      exact ih hks' hs hw (hsame ▸ hl)
    | some lock =>
      obtain ⟨hpass, hl'⟩ := pass_at_lock hlock (by simp [hw]) hl hk
      have hs' : (s.advanceLockCursor cfg).isStarted = true := hs
      exact Yields.again hs hs' hpass (ih hks' hs' hw hl')

theorem yields_of_conclude {ι : Type*} {key : ι → Key} {f : ι → Visit Value ScanFailure}
    {i : ι} {is : List ι} {s₁ : Scanner} {c : Cursor WriteEntry}
    {res : Except ScanFailure (Option Value)} (hs : s.isStarted = true)
    (hs₁ : s₁.isStarted = true) (hp : ∃ n, s.pass snap cfg n = some (s₁.conclude k (res, c)))
    (hi : key i = k) (hf : f i = visit res) (h : (∀ why, res ≠ .error why) →
      Yields snap cfg { s₁ with writeCursor := c } (walk key f is)) :
    Yields snap cfg s (walk key f (i :: is)) := by
  rw [walk, hf, hi]
  rcases res with why | _ | v
  · exact yields_failed hs hp
  · have hs' : ({ s₁ with writeCursor := c } : Scanner).isStarted = true := hs₁
    exact Yields.again hs hs' hp (h (by simp))
  · exact Yields.found hs hp (h (by simp))

end Mvcc
