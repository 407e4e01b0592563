/-
Forward scans against point reads.
-/
import Gookv.ScanSteps

open Txntypes

namespace Mvcc

open Cursor List ScannerConfig

variable {snap : Snapshot} {cfg : ScannerConfig} {c : Cursor WriteEntry}
  {A B : List WriteEntry} {k : Key} {q : TimeStamp × Write}
  {rs newer older : List (TimeStamp × Write)}

/-! ### The moves among the versions -/

theorem stepToTS_spec (hd : cfg.desc = false) (n : ℕ)
    (h : AtVersions c A k (q :: newer ++ older) B) (hnew : ∀ p ∈ q :: newer, cfg.readTS < p.1)
    (hold : ∀ p ∈ older, p.1 ≤ cfg.readTS) :
    (∃ c', stepToTS cfg k n c = (some (decide (older ≠ [])), c') ∧
        AtVersions c' (A ++ versions k (q :: newer)) k older B) ∨
      ∃ c' A' q' newer', stepToTS cfg k n c = (none, c') ∧
        AtVersions c' A' k (q' :: newer' ++ older) B ∧
        A' ++ versions k (q' :: newer') = A ++ versions k (q :: newer) ∧
        ∀ p ∈ q' :: newer', cfg.readTS < p.1 := by
  induction n generalizing c A q newer with
  | zero => exact Or.inr ⟨c, A, q, newer, rfl, h, rfl, hnew⟩
  | succ n ih =>
    have hadv : advanceWriteCursor cfg c = c.next := by
      simp [advanceWriteCursor, ScannerConfig.advance, hd]
    have hnext : AtVersions c.next (A ++ [⟨k, q.1, q.2⟩]) k (newer ++ older) B := h.next
    rw [stepToTS, hadv]
    cases newer with
    | nil =>
      refine Or.inl ⟨c.next, ?_, hnext⟩
      cases older with
      | nil =>
        cases hc : c.next.cur with
        | none => rfl
        | some e => exact if_pos (hnext.cur_nil hc)
      | cons p older =>
        have hp : p.1 ≤ cfg.readTS := hold p (by simp)
        have hcur : c.next.cur = some ⟨k, p.1, p.2⟩ := hnext.cur_cons
        rw [hcur]
        simp [hp]
    | cons p newer =>
      have hp : ¬p.1 ≤ cfg.readTS := not_le.mpr (hnew p (by simp))
      have hcur : c.next.cur = some ⟨k, p.1, p.2⟩ := hnext.cur_cons
      have hstep : ∀ x, A ++ [(⟨k, q.1, q.2⟩ : WriteEntry)] ++ versions k x =
          A ++ versions k (q :: x) := by simp [versions]
      rw [hcur]
      simp only [ne_eq, not_true_eq_false, if_false, hp]
      rcases ih hnext (fun x hx => hnew x (List.mem_cons_of_mem _ hx)) with
        ⟨c', h1, h2⟩ | ⟨c', A', q', newer', h1, h2, h3, h4⟩
      · exact Or.inl ⟨c', h1, hstep _ ▸ h2⟩
      · exact Or.inr ⟨c', A', q', newer', h1, h2, h3.trans (hstep _), h4⟩

theorem moveWriteCursorToTS_spec (hd : cfg.desc = false)
    (h : AtVersions c A k (newer ++ older) B) (hne : newer ++ older ≠ [])
    (hnew : ∀ p ∈ newer, cfg.readTS < p.1) (hold : ∀ p ∈ older, p.1 ≤ cfg.readTS) :
    ∃ c', moveWriteCursorToTS cfg k c = (decide (older ≠ []), c') ∧
      AtVersions c' (A ++ versions k newer) k older B := by
  cases newer with
  | nil =>
    cases older with
    | nil => exact absurd rfl hne
    | cons p older =>
      have hp : p.1 ≤ cfg.readTS := hold p (by simp)
      have hcur : c.cur = some ⟨k, p.1, p.2⟩ := h.cur_cons
      refine ⟨c, ?_, by simpa [versions] using h⟩
      rw [moveWriteCursorToTS, hcur]
      simp [hp]
  | cons q newer =>
    have hq : cfg.readTS < q.1 := hnew q (by simp)
    have hcur : c.cur = some ⟨k, q.1, q.2⟩ := h.cur_cons
    rw [moveWriteCursorToTS, hcur]
    simp only [true_and, not_le.mpr hq, hq, if_false, if_true]
    rcases stepToTS_spec hd seekBound h hnew hold with
      ⟨c', h1, h2⟩ | ⟨c', A', q', newer', h1, h2, h3, h4⟩
    · rw [h1]
      exact ⟨c', rfl, h2⟩
    · -- after many versions that are too new a seek takes over
      have hseek : AtVersions (c'.seek (reached k cfg.readTS)) (A ++ versions k (q :: newer)) k
          older B := by
        rw [← h3]
        exact h2.seek h4 hold
      refine ⟨_, ?_, hseek⟩
      rw [h1]
      dsimp only
      cases older with
      | nil =>
        cases hc : (c'.seek (reached k cfg.readTS)).cur with
        | none => rfl
        | some e => simp [hseek.cur_nil hc]
      | cons p older =>
        rw [hseek.cur_cons]
        simp [hold p (by simp)]

theorem leaveUserKey_spec (n : ℕ) (h : AtVersions c A k (q :: rs) B) :
    (leaveUserKey k n c).At (A ++ versions k (q :: rs)) B := by
  induction n generalizing c A q rs with
  | zero =>
    refine at_seek (h.pos.entries_eq.trans (append_assoc _ _ _).symm) ?_ ?_
    · intro e he
      rw [reached_append_zero, decide_eq_false_iff_not]
      rcases mem_append.mp he with he | he
      · rcases h.before e he with hlt | ⟨heq, -⟩
        · exact hlt.not_gt
        · exact heq.not_gt
      · exact ((mem_versions.mp he).1).not_gt
    · intro e he
      rw [reached_append_zero, decide_eq_true_iff]
      exact h.later e (mem_of_head? he)
  | succ n ih =>
    rw [leaveUserKey]
    cases rs with
    | nil =>
      have hnext : c.next.At (A ++ versions k [q]) B := h.next.pos
      cases hc : c.next.cur with
      | none => exact hnext
      | some e =>
        dsimp only
        rw [if_pos (h.next.cur_nil hc)]
        exact hnext
    | cons p rs =>
      rw [h.next.cur_cons]
      simp only [ne_eq, not_true_eq_false, if_false]
      exact (ih h.next).congr (by simp [versions]) rfl

theorem leaveUserKey_past (n : ℕ) (h : AtVersions c A k [] B) :
    ∃ A', (leaveUserKey k (n + 1) c).At A' B.tail ∧ A' ++ B.tail = A ++ B := by
  rw [leaveUserKey]
  cases B with
  | nil =>
    have hnext : c.next.At A [] := At.next_end h.pos
    rw [hnext.cur]
    exact ⟨A, hnext, rfl⟩
  | cons b B =>
    have hnext : c.next.At (A ++ [b]) B := At.next h.pos
    refine ⟨A ++ [b], ?_, by simp⟩
    cases hc : c.next.cur with
    | none => exact hnext
    | some e =>
      have hB : B.head? = some e := hnext.cur.symm.trans hc
      have hne : e.key ≠ k := (h.later e (mem_cons_of_mem _ (mem_of_head? hB))).ne'
      dsimp only
      rw [if_pos hne]
      exact hnext

def AllNewer (cfg : ScannerConfig) (rs : List (TimeStamp × Write)) : Prop :=
  ∀ q ∈ rs, cfg.readTS < q.1

instance : Decidable (AllNewer cfg rs) := inferInstanceAs (Decidable (∀ q ∈ rs, _))

theorem handleWrite_forward (hd : cfg.desc = false) (h : AtVersions c A k rs B)
    (hne : rs ≠ []) (hrs : ∀ p ∈ rs, p ∈ (snap.rows k).writes.entries) :
    ∃ n c' A' B', handleWrite snap cfg n k c = some (found snap cfg k rs, c') ∧
      c'.At A' B' ∧ A' ++ B' = A ++ (versions k rs ++ B) ∧
      B' = if AllNewer cfg rs then B.tail else B := by
  obtain ⟨newer, older, rfl, hnew, hold⟩ := exists_split h.rs_pairwise cfg.readTS
  obtain ⟨c₁, hmove, h₁⟩ := moveWriteCursorToTS_spec hd h hne hnew hold
  have hleave : ∀ c, moveWriteCursorToNextUserKey cfg k c = leaveUserKey k seekBound c := by
    simp [moveWriteCursorToNextUserKey, hd]
  have hfound : found snap cfg k (newer ++ older) = found snap cfg k older := by
    have hlatest : latest cfg (newer ++ older) = latest cfg older :=
      latest_append_of_forall newer fun p hp hle => absurd hle (not_le.mpr (hnew p hp))
    rw [found, found, hlatest]
  have hcat : A ++ versions k newer ++ versions k older = A ++ versions k (newer ++ older) := by
    simp [versions]
  unfold handleWrite
  simp only [hd, Bool.false_eq_true, if_false, hmove]
  cases older with
  | nil =>
    have hall : AllNewer cfg (newer ++ []) := by
      rw [append_nil]
      exact hnew
    obtain ⟨A', hA', hcat'⟩ := leaveUserKey_past 31 h₁
    refine ⟨0, _, A', B.tail, ?_, hA', ?_, (if_pos hall).symm⟩
    · simp only [ne_eq, not_true_eq_false, decide_false, hleave, hfound]
      rfl
    · rw [hcat', append_assoc]
      simp
  | cons p older =>
    have hall : ¬AllNewer cfg (newer ++ p :: older) := fun hall =>
      absurd (hold p (by simp)) (not_le.mpr (hall p (by simp)))
    have hrows : ∀ x ∈ p :: older, x ∈ (snap.rows k).writes.entries :=
      fun x hx => hrs x (mem_append_right _ hx)
    obtain ⟨n, c', hloop, hc'⟩ := versionLoop_spec h₁ hold hrows
    rw [if_neg hall, hfound]
    refine ⟨n, c', A ++ versions k (newer ++ p :: older), B, ?_, ?_, by simp, rfl⟩
    · simpa using hloop
    · rw [← hcat]
      rcases hc' with ⟨-, hc'⟩ | ⟨-, c₂, A₂, q₂, rs₂, h₂, hA₂, rfl⟩
      · exact hc'.pos
      · rw [hleave, ← hA₂]
        exact leaveUserKey_spec seekBound h₂

/-! ### The arrivals -/

section

variable (snap cfg)

def arriving (owed : Bool) (k : Key) : List (TimeStamp × Write) :=
  if owed then (records snap cfg k).tail else records snap cfg k

def owes (owed : Bool) (k : Key) : Bool :=
  if records snap cfg k = [] then owed
  else arriving snap cfg owed k ≠ [] ∧ AllNewer cfg (arriving snap cfg owed k)

def arrivals : Bool → List Key → List (Key × List (TimeStamp × Write))
  | _, [] => []
  | owed, k :: ks => (k, arriving snap cfg owed k) :: arrivals (owes snap cfg owed k) ks

def ahead (owed : Bool) (ks : List Key) : List WriteEntry :=
  if owed then (recordsOf snap cfg ks).tail else recordsOf snap cfg ks

def arrivalVisit (p : Key × List (TimeStamp × Write)) : Visit Value ScanFailure :=
  if p.2 = [] then .skip
  else
    match blocking snap cfg p.1 with
    | some lock => .stop (.locked lock)
    | none => visit (found snap cfg p.1 p.2)

end

variable {owed : Bool} {ks : List Key} {s : Scanner}

theorem arrivals_keys : (arrivals snap cfg owed ks).map Prod.fst = ks := by
  induction ks generalizing owed with
  | nil => rfl
  | cons k ks ih => rw [arrivals, map_cons, ih]

theorem mem_of_mem_ahead {e : WriteEntry} (h : e ∈ ahead snap cfg owed ks) :
    e ∈ recordsOf snap cfg ks := by
  unfold ahead at h
  split at h
  · exact mem_of_mem_tail h
  · exact h

theorem mem_records_of_mem_arriving (h : q ∈ arriving snap cfg owed k) :
    q ∈ records snap cfg k := by
  unfold arriving at h
  split at h
  · exact mem_of_mem_tail h
  · exact h

theorem ahead_of_arriving_nil (h : arriving snap cfg owed k = []) :
    ahead snap cfg owed (k :: ks) = ahead snap cfg (owes snap cfg owed k) ks := by
  unfold arriving at h
  unfold ahead owes arriving
  cases hr : records snap cfg k with
  | nil => simp [recordsOf, hr, versions]
  | cons p rs =>
    cases owed with
    | false => simp [hr] at h
    | true =>
      obtain rfl : rs = [] := by simpa [hr] using h
      simp [recordsOf, hr, versions]

theorem ahead_of_arriving_ne (h : arriving snap cfg owed k ≠ []) : ahead snap cfg owed (k :: ks) =
      versions k (arriving snap cfg owed k) ++ recordsOf snap cfg ks := by
  unfold arriving at h ⊢
  unfold ahead
  cases hr : records snap cfg k with
  | nil => simp [hr] at h
  | cons p rs => cases owed <;> simp [recordsOf, hr, versions]

theorem ahead_after (h : arriving snap cfg owed k ≠ []) : ahead snap cfg (owes snap cfg owed k) ks =
      if AllNewer cfg (arriving snap cfg owed k) then (recordsOf snap cfg ks).tail
      else recordsOf snap cfg ks := by
  have hr : records snap cfg k ≠ [] := by
    intro hr
    refine h (eq_nil_iff_forall_not_mem.mpr fun q hq => ?_)
    simpa [hr] using mem_records_of_mem_arriving hq
  unfold ahead owes
  rw [if_neg hr]
  simp [h]

theorem yields_forward (hd : cfg.desc = false) (hks : ks.Pairwise (· < ·))
    (hs : s.isStarted = true) (hw : s.writeCursor.At A (ahead snap cfg owed ks))
    (hsorted : (A ++ ahead snap cfg owed ks).Pairwise WriteEntry.Before)
    (hl : LocksAhead cfg s.lockCursor (locksOf snap cfg ks)) : Yields snap cfg s
      (walk Prod.fst (arrivalVisit snap cfg) (arrivals snap cfg owed ks)) := by
  induction ks generalizing s owed A with
  | nil =>
    have hcur : s.writeCursor.cur = none := by
      rw [hw.cur]
      cases owed <;> rfl
    exact yields_exhausted hs (pass_exhausted hcur hl)
  | cons k ks ih =>
    obtain ⟨hk, hks'⟩ := pairwise_cons.mp hks
    have hbefore : ∀ j ∈ ks, cfg.Before k j := by
      simpa [Before, hd] using hk
    rw [arrivals]
    by_cases harr : arriving snap cfg owed k = []
    · -- the key arrives without a record, and its lock is passed over
      rw [ahead_of_arriving_nil harr] at hw hsorted
      have hskip : arrivalVisit snap cfg (k, arriving snap cfg owed k) = .skip := if_pos harr
      rw [walk, hskip]
      cases hlock : heldLock snap cfg k with
      | none =>
        have hsame : locksOf snap cfg (k :: ks) = locksOf snap cfg ks := by
          simp [locksOf, hlock]
        exact ih hks' hs hw hsorted (hsame ▸ hl)
      | some lock =>
        have hcur : ∀ e, s.writeCursor.cur = some e → cfg.Before k e.key := by
          intro e he
          have hmem := mem_of_head? (hw.cur.symm.trans he)
          exact hbefore _ (key_mem_of_mem_recordsOf (mem_of_mem_ahead hmem))
        obtain ⟨hpass, hl'⟩ := pass_at_lock hlock hcur hl hbefore
        have hs' : (s.advanceLockCursor cfg).isStarted = true := hs
        exact Yields.again hs hs' hpass (ih hks' hs' hw hsorted hl')
    · rw [ahead_of_arriving_ne harr] at hw hsorted
      have hat : AtVersions s.writeCursor A k (arriving snap cfg owed k)
          (recordsOf snap cfg ks) :=
        ⟨hw, hsorted, fun e he => hk _ (key_mem_of_mem_recordsOf he)⟩
      obtain ⟨p, rs, hp⟩ := exists_cons_of_ne_nil harr
      have hmem : p ∈ arriving snap cfg owed k := by simp [hp]
      have hbound : cfg.withinBound k = true := by
        have hcov := (mem_records.mp (mem_records_of_mem_arriving hmem)).2
        unfold coversWrite at hcov
        simp only [hd, Bool.false_eq_true, if_false, Bool.and_eq_true] at hcov
        simp [withinBound, hd, hcov.2]
      have hcur : s.writeCursor.cur = some ⟨k, p.1, p.2⟩ := by
        rw [hp] at hat
        exact hat.cur_cons
      obtain ⟨s₁, hw₁, hs₁, hl₁, hpass⟩ := pass_at_write hcur rfl hl hbefore hbound
      rw [hs] at hs₁
      cases hb : blocking snap cfg k with
      | some lock =>
        have hstop : arrivalVisit snap cfg (k, arriving snap cfg owed k) =
            .stop (.locked lock) := by
          simp [arrivalVisit, harr, hb]
        rw [walk, hstop]
        have hfail : Passes snap cfg s (some (.failed k (.locked lock))) s₁ :=
          ⟨0, by rw [hpass, hb]⟩
        exact yields_failed hs hfail
      | none =>
        obtain ⟨n, c', A', B', hwrite, hc', hcat, hB'⟩ := handleWrite_forward hd hat harr
          fun x hx => (mem_records.mp (mem_records_of_mem_arriving hx)).1
        rw [← ahead_after harr] at hB'
        subst hB'
        have hpass' : s.pass snap cfg n =
            some (s₁.conclude k (found snap cfg k (arriving snap cfg owed k), c')) := by
          rw [hpass, hb, hwrite]
          rfl
        have hvisit : arrivalVisit snap cfg (k, arriving snap cfg owed k) =
            visit (found snap cfg k (arriving snap cfg owed k)) := by
          simp [arrivalVisit, harr, hb]
        refine yields_of_conclude hs hs₁ ⟨n, hpass'⟩ rfl hvisit fun _ => ?_
        exact ih hks' hs₁ hc' (hcat ▸ hsorted) hl₁

theorem locksAhead_of_at (hd : cfg.desc = false) {c : Cursor LockEntry} {A L : List LockEntry}
    (h : c.At A L) : LocksAhead cfg (some c) L := by
  induction L generalizing c A with
  | nil => exact h.cur
  | cons l L ih =>
    have hadv : cfg.advance c = c.next := by simp [ScannerConfig.advance, hd]
    refine ⟨h.cur, ?_⟩
    rw [Option.map_some, hadv]
    exact ih h.next

theorem yields_newScanner_forward (hd : cfg.desc = false) : Yields snap cfg (newScanner snap cfg)
      (walk Prod.fst (arrivalVisit snap cfg) (arrivals snap cfg false snap.keys)) := by
  have hstart : (newScanner snap cfg).initialSeek cfg =
      { writeCursor := (newScanner snap cfg).writeCursor.seekToFirst
        lockCursor := (newScanner snap cfg).lockCursor.map seekToFirst
        isStarted := true } := by
    simp [Scanner.initialSeek, hd, newScanner]
  refine Yields.start ?_ (by rw [hstart])
  rw [hstart]
  refine yields_forward hd snap.sorted rfl (A := []) ?_ ?_ ?_
  · exact at_seekToFirst _
  · exact recordsOf_pairwise snap.sorted
  · by_cases hsi : cfg.isolationLevel = .si
    · have hlocks : lockEntries snap cfg = locksOf snap cfg snap.keys := by
        simp [lockEntries, locksOf, heldLock, hsi]
      rw [← hlocks, newScanner, if_pos hsi]
      exact locksAhead_of_at hd (at_seekToFirst _)
    · have hlocks : locksOf snap cfg snap.keys = [] := by simp [locksOf, heldLock, hsi]
      rw [hlocks, newScanner, if_neg hsi]
      rfl

def ArrivesVisible (snap : Snapshot) (cfg : ScannerConfig) : Prop :=
  ∀ p ∈ arrivals snap cfg false snap.keys,
    (∀ j ∈ snap.keys, j < p.1 → blocking snap cfg j = none) →
      if (blocking snap cfg p.1).isSome then p.2 ≠ []
      else found snap cfg p.1 p.2 = .ok (expected snap cfg p.1)

instance (snap : Snapshot) (cfg : ScannerConfig) : Decidable (ArrivesVisible snap cfg) :=
  inferInstanceAs (Decidable (∀ p ∈ arrivals snap cfg false snap.keys, _))

theorem arrivalVisit_eq_iff {p : Key × List (TimeStamp × Write)} :
    arrivalVisit snap cfg p = pointRead snap cfg p.1 ↔
      if (blocking snap cfg p.1).isSome then p.2 ≠ []
      else found snap cfg p.1 p.2 = .ok (expected snap cfg p.1) := by
  unfold arrivalVisit pointRead
  cases hb : blocking snap cfg p.1 with
  | some lock => by_cases hp : p.2 = [] <;> simp [hp]
  | none =>
    have hskip : (if p.2 = [] then Visit.skip else visit (found snap cfg p.1 p.2)) =
        visit (found snap cfg p.1 p.2) := by
      by_cases hp : p.2 = []
      · simp [hp, found, latest, visit]
      · simp [hp]
    rw [hskip]
    simpa using visit_injective.eq_iff

theorem arrivalVisit_ne_finish (p : Key × List (TimeStamp × Write)) :
    arrivalVisit snap cfg p ≠ .finish := by
  unfold arrivalVisit
  split
  · simp
  · cases blocking snap cfg p.1 with
    | some lock => simp
    | none => rcases found snap cfg p.1 p.2 with why | _ | v <;> simp [visit]

theorem scansPointReads_iff_walk (hd : cfg.desc = false) : ScansPointReads snap cfg ↔
    walk Prod.fst (arrivalVisit snap cfg) (arrivals snap cfg false snap.keys) =
      walk Prod.fst (fun p => pointRead snap cfg p.1) (arrivals snap cfg false snap.keys) := by
  refine scansPointReads_iff ?_ (yields_newScanner_forward hd)
  simp [arrivals_keys, scanOrder, hd]

/-- **When a forward scan returns the point reads of its range.** -/
theorem scansPointReads_forward_iff (hd : cfg.desc = false) :
    ScansPointReads snap cfg ↔ ArrivesVisible snap cfg := by
  have hsorted : (arrivals snap cfg false snap.keys).Pairwise fun p p' => p.1 < p'.1 := by
    rw [← pairwise_map, arrivals_keys]
    exact snap.sorted
  rw [scansPointReads_iff_walk hd, walk_eq_iff (R := (· < ·)) (fun _ _ h => h.not_gt) hsorted
    fun p _ => pointRead_isPlain p.1]
  refine forall₂_congr fun p _ => ?_
  have hpre : (∀ j ∈ arrivals snap cfg false snap.keys, j.1 < p.1 →
      (∀ why, pointRead snap cfg j.1 ≠ .stop why) ∧ arrivalVisit snap cfg j ≠ .finish) ↔
      ∀ j ∈ snap.keys, j < p.1 → blocking snap cfg j = none := by
    simp only [arrivalVisit_ne_finish, ne_eq, not_false_eq_true, and_true]
    simp only [← ne_eq, pointRead_ne_stop_iff]
    rw [← forall_mem_map (f := Prod.fst)
      (P := fun j => j < p.1 → blocking snap cfg j = none), arrivals_keys]
  rw [hpre, arrivalVisit_eq_iff]
  simp only [arrivalVisit_ne_finish, false_and, or_false]

def shadowed : Snapshot := Snapshot.ofModifies
  [.putWrite [1] 9 { writeType := .put, startTS := 8, shortValue := some [7] },
    .putWrite [2] 3 { writeType := .put, startTS := 2, shortValue := some [8] },
    .putLock [3] { lockType := .put, primary := [3], startTS := 4, ttl := 3000 }] (by decide)

theorem forward_scan_misses :
    (newScanner shadowed { readTS := 5 }).collect shadowed { readTS := 5 } 5 = some ([], none) ∧
      PointGetter.get { ts := 5 } shadowed.rows [2] = .ok (some [8]) ∧
      ¬ScansPointReads shadowed { readTS := 5 } := by
  refine ⟨by decide, by decide, ?_⟩
  rw [scansPointReads_iff_walk rfl]
  decide

def covered : Snapshot := Snapshot.ofModifies
  [.putWrite [1] 9 { writeType := .put, startTS := 8, shortValue := some [7] },
    .putWrite [1] 3 { writeType := .put, startTS := 2, shortValue := some [6] },
    .putWrite [2] 5 { writeType := .rollback, startTS := 5 },
    .putWrite [2] 2 { writeType := .put, startTS := 1 },
    .putValue [2] 1 [8],
    .putWrite [3] 4 { writeType := .delete, startTS := 3 },
    .putWrite [4] 3 { writeType := .put, startTS := 2, shortValue := some [9] },
    .putLock [4] { lockType := .put, primary := [4], startTS := 4, ttl := 3000 }] (by decide)

theorem scansPointReads_covered : ScansPointReads covered { readTS := 5 } :=
  (scansPointReads_forward_iff rfl).mpr (by decide)

end Mvcc