/-
Backward scans against point reads.
-/
import Gookv.ScanSteps

open Txntypes

namespace Mvcc

open Cursor List ScannerConfig

variable {snap : Snapshot} {cfg : ScannerConfig} {c : Cursor WriteEntry}
  {A B : List WriteEntry} {k : Key} {rs : List (TimeStamp × Write)}

/-! ### The moves among the versions -/

def Stuck (cfg : ScannerConfig) (rs : List (TimeStamp × Write)) : Prop :=
  (∃ q ∈ rs, q.1 ≤ cfg.readTS) ∧ latest cfg rs = none

instance : Decidable (Stuck cfg rs) := inferInstanceAs (Decidable (_ ∧ _))

theorem repositionForBackward_spec (he : c.entries = A ++ (versions k rs ++ B)) (hne : rs ≠ [])
    (hA : ∀ e ∈ A, e.key < k) : (repositionForBackward k c).entries = c.entries ∧
      (repositionForBackward k c).cur = A.getLast? := by
  obtain ⟨q, rs, rfl⟩ := exists_cons_of_ne_nil hne
  have hseek : (c.seek (reached k tsMax)).At A (versions k (q :: rs) ++ B) := by
    refine at_seek he (fun e h => reached_of_key_lt (hA e h)) ?_
    rintro e ⟨rfl⟩
    rw [reached_tsMax]
    exact decide_eq_true le_rfl
  have hcur : (c.seek (reached k tsMax)).cur = some ⟨k, q.1, q.2⟩ := hseek.cur
  rw [repositionForBackward, hcur]
  refine ⟨rfl, ?_⟩
  rcases eq_nil_or_concat A with rfl | ⟨A, a, rfl⟩
  · exact hseek.prev_first.cur
  · rw [concat_eq_append] at hseek
    rw [hseek.prev.cur]
    simp

theorem handleWrite_backward (hd : cfg.desc = true) (he : c.entries = A ++ (versions k rs ++ B))
    (hsorted : (A ++ (versions k rs ++ B)).Pairwise WriteEntry.Before)
    (hA : ∀ e ∈ A, e.key < k) (hB : ∀ e ∈ B, k < e.key) (hne : rs ≠ [])
    (hrs : ∀ p ∈ rs, p ∈ (snap.rows k).writes.entries) :
    ∃ n c', handleWrite snap cfg n k c = some (found snap cfg k rs, c') ∧
      c'.entries = c.entries ∧
      c'.cur = if Stuck cfg rs then B.head? else A.getLast? := by
  have hpw : rs.Pairwise fun a b => b.1 < a.1 :=
    versions_pairwise.mp (pairwise_append.mp (pairwise_append.mp hsorted).2.1).1
  obtain ⟨newer, older, rfl, hnew, hold⟩ := exists_split hpw cfg.readTS
  have hseek : AtVersions (c.seek (reached k cfg.readTS)) (A ++ versions k newer) k older B :=
    atVersions_seek he hsorted hB (fun e h => reached_of_key_lt (hA e h)) hnew hold
  have hentries : (c.seek (reached k cfg.readTS)).entries = c.entries := rfl
  have hback : ∀ c, moveWriteCursorToNextUserKey cfg k c = repositionForBackward k c := by
    simp [moveWriteCursorToNextUserKey, hd]
  have hlatest : latest cfg (newer ++ older) = latest cfg older :=
    latest_append_of_forall newer fun p hp hle => absurd hle (not_le.mpr (hnew p hp))
  have hfound : found snap cfg k (newer ++ older) = found snap cfg k older := by
    rw [found, found, hlatest]
  rw [hfound]
  unfold handleWrite
  simp only [hd, if_true]
  cases older with
  | nil =>
    -- no version is visible
    have hstuck : ¬Stuck cfg (newer ++ []) := by
      rintro ⟨⟨q, hq, hle⟩, -⟩
      rw [append_nil] at hq
      exact absurd hle (not_le.mpr (hnew q hq))
    have hmove : moveWriteCursorToTS cfg k (c.seek (reached k cfg.readTS)) =
        (false, c.seek (reached k cfg.readTS)) := by
      rw [moveWriteCursorToTS]
      cases hc : (c.seek (reached k cfg.readTS)).cur with
      | none => rfl
      | some e => simp [hseek.cur_nil hc]
    obtain ⟨h1, h2⟩ := repositionForBackward_spec (hentries.trans he) hne hA
    rw [if_neg hstuck, hmove]
    refine ⟨0, _, rfl, ?_, ?_⟩
    · rw [hback]
      exact h1
    · rw [hback]
      exact h2
  | cons p older =>
    have hmove : moveWriteCursorToTS cfg k (c.seek (reached k cfg.readTS)) =
        (true, c.seek (reached k cfg.readTS)) := by
      rw [moveWriteCursorToTS, hseek.cur_cons]
      simp [hold p (by simp)]
    have hstuck : Stuck cfg (newer ++ p :: older) ↔ latest cfg (p :: older) = none := by
      unfold Stuck
      rw [hlatest]
      exact and_iff_right ⟨p, by simp, hold p (by simp)⟩
    have hrows : ∀ x ∈ p :: older, x ∈ (snap.rows k).writes.entries :=
      fun x hx => hrs x (mem_append_right _ hx)
    obtain ⟨n, c', hloop, hc'⟩ := versionLoop_spec hseek hold hrows
    rw [hmove]
    rcases hc' with ⟨hnone, hc'⟩ | ⟨hsome, c₂, A₂, q₂, rs₂, h₂, hA₂, rfl⟩
    · refine ⟨n, c', hloop, ?_, ?_⟩
      · rw [he, hc'.pos.entries_eq]
        simp [versions]
      · rw [if_pos (hstuck.mpr hnone), hc'.pos.cur]
        rfl
    · have he₂ : c₂.entries = A ++ (versions k (newer ++ p :: older) ++ B) := by
        rw [h₂.pos.entries_eq, ← append_assoc, hA₂]
        simp [versions]
      obtain ⟨h1, h2⟩ := repositionForBackward_spec he₂ hne hA
      refine ⟨n, _, hloop, ?_, ?_⟩
      · rw [hback, h1, he₂, he]
      · rw [if_neg (hstuck.not.mpr hsome), hback]
        exact h2

theorem withinBound_of_mem_records {q : TimeStamp × Write} (hd : cfg.desc = true)
    (hq : q ∈ records snap cfg k) : cfg.withinBound k = true := by
  have hcov := (mem_records.mp hq).2
  unfold coversWrite at hcov
  rw [Bool.and_eq_true] at hcov
  simp [withinBound, hd, hcov.1]

theorem exists_first_record {ks : List Key} (h : recordsOf snap cfg ks ≠ []) :
    ∃ k' ks₁ ks₂, ks = ks₁ ++ k' :: ks₂ ∧ records snap cfg k' ≠ [] ∧
      recordsOf snap cfg ks =
        versions k' (records snap cfg k') ++ recordsOf snap cfg ks₂ := by
  induction ks with
  | nil => exact absurd rfl h
  | cons j ks ih =>
    by_cases hj : records snap cfg j = []
    · have hsame : recordsOf snap cfg (j :: ks) = recordsOf snap cfg ks := by
        simp [recordsOf, hj, versions]
      obtain ⟨k', ks₁, ks₂, rfl, hk', hks⟩ := ih (hsame ▸ h)
      exact ⟨k', j :: ks₁, ks₂, rfl, hk', hsame.trans hks⟩
    · exact ⟨j, [], ks, rfl, hj, rfl⟩

variable {ks : List Key} {s : Scanner} {k' : Key} {rs' : List (TimeStamp × Write)}

theorem yields_none_of_stuck (hd : cfg.desc = true) (hk : k < k')
    (hsorted : (A ++ (versions k rs ++ (versions k' rs' ++ B))).Pairwise WriteEntry.Before)
    (hA : ∀ e ∈ A, e.key < k) (hB : ∀ e ∈ B, k' < e.key)
    (hrs : rs ≠ []) (hrows : ∀ p ∈ rs, p ∈ (snap.rows k).writes.entries)
    (hrs' : rs' ≠ []) (hrows' : ∀ p ∈ rs', p ∈ (snap.rows k').writes.entries)
    (hstuck : Stuck cfg rs) (hstuck' : ¬Stuck cfg rs')
    (hfound : ∀ why, found snap cfg k' rs' ≠ .error why)
    (hbound : cfg.withinBound k = true) (hbound' : cfg.withinBound k' = true)
    (hks : ∀ j ∈ ks, j < k) (hs : s.isStarted = true)
    (he : s.writeCursor.entries = A ++ (versions k rs ++ (versions k' rs' ++ B)))
    (hcur : ∃ e, s.writeCursor.cur = some e ∧ (e.key = k ∨ e.key = k'))
    (hl : LocksAhead cfg s.lockCursor (locksOf snap cfg ks)) : Yields snap cfg s none := by
  obtain ⟨q, rs, rfl⟩ := exists_cons_of_ne_nil hrs
  obtain ⟨q', rs', rfl⟩ := exists_cons_of_ne_nil hrs'
  have hbefore : ∀ j ∈ ks, cfg.Before k j := by
    simpa [Before, hd] using hks
  have hbefore' : ∀ j ∈ ks, cfg.Before k' j := by
    simpa [Before, hd] using fun j hj => (hks j hj).trans hk
  refine yields_none (D := fun s => s.isStarted = true ∧
    s.writeCursor.entries = A ++ (versions k (q :: rs) ++ (versions k' (q' :: rs') ++ B)) ∧
    (∃ e, s.writeCursor.cur = some e ∧ (e.key = k ∨ e.key = k')) ∧
    LocksAhead cfg s.lockCursor (locksOf snap cfg ks)) (fun s h => h.1) ?_ ⟨hs, he, hcur, hl⟩
  rintro s ⟨hs, he, ⟨e, hcur, hek | hek⟩, hl⟩
  · -- at the stuck key the search runs on to the larger one
    have hlater : ∀ x ∈ versions k' (q' :: rs') ++ B, k < x.key := by
      intro x hx
      rcases mem_append.mp hx with hx | hx
      · rw [(mem_versions.mp hx).1]
        exact hk
      · exact hk.trans (hB x hx)
    obtain ⟨n, c', hwrite, hentries, hcur'⟩ :=
      handleWrite_backward hd he hsorted hA hlater hrs hrows
    have hres : found snap cfg k (q :: rs) = .ok none := by rw [found, hstuck.2]
    rw [if_pos hstuck] at hcur'
    refine ⟨none, { s with writeCursor := c' }, ⟨n, ?_⟩, ⟨hs, hentries.trans he, ?_, hl⟩, ?_⟩
    · rw [pass_without_lock hcur hek hl hbefore hbound, hwrite, hres]
      rfl
    · exact ⟨_, hcur', .inr rfl⟩
    · simp
  · -- and from there the scan goes back to the stuck key
    have he' : s.writeCursor.entries =
        (A ++ versions k (q :: rs)) ++ (versions k' (q' :: rs') ++ B) := by
      rw [he, append_assoc]
    have hbelow : ∀ x ∈ A ++ versions k (q :: rs), x.key < k' := by
      intro x hx
      rcases mem_append.mp hx with hx | hx
      · exact (hA x hx).trans hk
      · rw [(mem_versions.mp hx).1]
        exact hk
    have hsorted' := hsorted
    rw [← append_assoc] at hsorted'
    obtain ⟨n, c', hwrite, hentries, hcur'⟩ :=
      handleWrite_backward hd he' hsorted' hbelow hB hrs' hrows'
    rw [if_neg hstuck'] at hcur'
    obtain ⟨x, hx, hxk⟩ : ∃ x, c'.cur = some x ∧ x.key = k := by
      have hne : versions k (q :: rs) ≠ [] := by simp [versions]
      rw [getLast?_append_of_ne_nil _ hne, getLast?_eq_some_getLast hne] at hcur'
      exact ⟨_, hcur', (mem_versions.mp (getLast_mem hne)).1⟩
    have hpass := pass_without_lock hcur hek hl hbefore' hbound' n
    rw [hwrite, Option.map_some] at hpass
    cases hres : found snap cfg k' (q' :: rs') with
    | error why => exact absurd hres (hfound why)
    | ok o =>
      rw [hres] at hpass
      cases o with
      | none =>
        exact ⟨none, { s with writeCursor := c' }, ⟨n, hpass⟩,
          ⟨hs, hentries.trans he, ⟨x, hx, .inl hxk⟩, hl⟩, by simp⟩
      | some v =>
        refine ⟨some (.found k' v), { s with writeCursor := c' }, ⟨n, hpass⟩,
          ⟨hs, hentries.trans he, ⟨x, hx, .inl hxk⟩, hl⟩, ?_⟩
        rintro res ⟨rfl⟩
        exact ⟨k', v, rfl⟩

/-! ### The scan as a walk -/

section

variable (snap cfg)

def EndsAt (k : Key) : Prop :=
  blocking snap cfg k = none ∧ Stuck cfg (records snap cfg k) ∧
    ∀ j ∈ snap.keys, k < j → records snap cfg j = []

instance (k : Key) : Decidable (EndsAt snap cfg k) := inferInstanceAs (Decidable (_ ∧ _))

def backwardVisit (k : Key) : Visit Value ScanFailure :=
  if records snap cfg k = [] then .skip
  else
    match blocking snap cfg k with
    | some lock => .stop (.locked lock)
    | none =>
      if Stuck cfg (records snap cfg k) then
        if EndsAt snap cfg k then .finish else .diverge
      else visit (found snap cfg k (records snap cfg k))

end

variable {dk : List Key}

structure KeysAround (snap : Snapshot) (cfg : ScannerConfig) (ks : List Key) (k : Key)
    (dk : List Key) : Prop where
  keys_eq : snap.keys = ks.reverse ++ k :: dk
  below : ∀ j ∈ ks, j < k
  above : ∀ j ∈ dk, k < j
  above_sorted : dk.Pairwise (· < ·)
  below_sorted : ks.Pairwise cfg.Before
  before : ∀ j ∈ ks, cfg.Before k j

theorem keysAround (hd : cfg.desc = true) (hkeys : snap.keys = ks.reverse ++ k :: dk) :
    KeysAround snap cfg ks k dk := by
  have hsorted := snap.sorted
  rw [hkeys] at hsorted
  obtain ⟨hlow, hhigh, hlt⟩ := pairwise_append.mp hsorted
  obtain ⟨habove, hhigh'⟩ := pairwise_cons.mp hhigh
  have hbelow : ∀ j ∈ ks, j < k := fun j hj => hlt j (by simpa using hj) k (by simp)
  refine ⟨hkeys, hbelow, habove, hhigh', ?_, ?_⟩
  · refine (pairwise_reverse.mp hlow).imp fun {i j} hij => ?_
    simpa [Before, hd] using hij
  · simpa [Before, hd] using hbelow

namespace KeysAround

section
variable (h : KeysAround snap cfg ks k dk)
include h

theorem mem_dk_iff {j : Key} : j ∈ dk ↔ j ∈ snap.keys ∧ k < j := by
  rw [h.keys_eq, mem_append, mem_reverse, mem_cons]
  constructor
  · exact fun hj => ⟨.inr (.inr hj), h.above j hj⟩
  · rintro ⟨hj | rfl | hj, hkj⟩
    · exact absurd hkj (h.below j hj).not_gt
    · exact absurd hkj (lt_irrefl _)
    · exact hj

theorem recordsOf_eq : recordsOf snap cfg snap.keys = recordsOf snap cfg ks.reverse ++
      (versions k (records snap cfg k) ++ recordsOf snap cfg dk) := by
  rw [h.keys_eq]
  simp [recordsOf]

theorem recordsOf_sorted : (recordsOf snap cfg ks.reverse ++
      (versions k (records snap cfg k) ++ recordsOf snap cfg dk)).Pairwise
        WriteEntry.Before := by
  rw [← h.recordsOf_eq]
  exact recordsOf_pairwise snap.sorted

theorem records_below : ∀ e ∈ recordsOf snap cfg ks.reverse, e.key < k :=
  fun e he => h.below _ (by simpa using key_mem_of_mem_recordsOf he)

theorem records_above : ∀ e ∈ recordsOf snap cfg dk, k < e.key :=
  fun _ he => h.above _ (key_mem_of_mem_recordsOf he)

theorem endsAt_iff (hb : blocking snap cfg k = none) (hstuck : Stuck cfg (records snap cfg k)) :
    EndsAt snap cfg k ↔ recordsOf snap cfg dk = [] := by
  have hnil : recordsOf snap cfg dk = [] ↔ ∀ j ∈ dk, records snap cfg j = [] := by
    simp [recordsOf, versions]
  rw [hnil]
  constructor
  · rintro ⟨-, -, hnone⟩ j hj
    obtain ⟨hj1, hj2⟩ := h.mem_dk_iff.mp hj
    exact hnone j hj1 hj2
  · exact fun hnone => ⟨hb, hstuck, fun j hj hkj => hnone j (h.mem_dk_iff.mpr ⟨hj, hkj⟩)⟩

end

end KeysAround

def Passed (snap : Snapshot) (cfg : ScannerConfig) (dk : List Key) : Prop :=
  ∀ j ∈ dk, ¬Stuck cfg (records snap cfg j) ∧
    ∀ why, found snap cfg j (records snap cfg j) ≠ .error why

theorem yields_after_stuck (hd : cfg.desc = true) (h : KeysAround snap cfg ks k dk)
    (hdk : Passed snap cfg dk) (hstuck : Stuck cfg (records snap cfg k))
    (hs : s.isStarted = true) (he : s.writeCursor.entries = recordsOf snap cfg snap.keys)
    (hcur : s.writeCursor.cur = (recordsOf snap cfg dk).head?)
    (hl : LocksAhead cfg s.lockCursor (locksOf snap cfg ks)) :
    Yields snap cfg s (if recordsOf snap cfg dk = [] then some ([], none) else none) := by
  by_cases hend : recordsOf snap cfg dk = []
  · rw [if_pos hend]
    rw [hend, head?_nil] at hcur
    exact yields_of_locks_only h.below_sorted hs hcur hl
  · rw [if_neg hend]
    obtain ⟨k', dk₁, dk₂, rfl, hrs', hrec⟩ := exists_first_record hend
    have hk' : k' ∈ dk₁ ++ k' :: dk₂ := by simp
    have hsorted := h.recordsOf_sorted
    rw [h.recordsOf_eq, hrec] at he
    rw [hrec] at hsorted hcur
    have hB : ∀ e ∈ recordsOf snap cfg dk₂, k' < e.key := by
      intro _ hx
      obtain ⟨-, hpw, -⟩ := pairwise_append.mp h.above_sorted
      exact (pairwise_cons.mp hpw).1 _ (key_mem_of_mem_recordsOf hx)
    obtain ⟨⟨p, hp, -⟩, -⟩ := id hstuck
    obtain ⟨q, rest, hq⟩ := exists_cons_of_ne_nil hrs'
    have hmem : q ∈ records snap cfg k' := by simp [hq]
    have hcur' : ∃ e, s.writeCursor.cur = some e ∧ (e.key = k ∨ e.key = k') := by
      rw [hcur, hq]
      exact ⟨_, rfl, .inr rfl⟩
    exact yields_none_of_stuck hd (h.above k' hk') hsorted h.records_below hB
      (ne_nil_of_mem hp) (fun x hx => (mem_records.mp hx).1) hrs'
      (fun x hx => (mem_records.mp hx).1) hstuck (hdk k' hk').1 (hdk k' hk').2
      (withinBound_of_mem_records hd hp) (withinBound_of_mem_records hd hmem)
      h.below hs he hcur' hl

theorem yields_backward (hd : cfg.desc = true) (hkeys : snap.keys = ks.reverse ++ dk)
    (hdk : Passed snap cfg dk) (hs : s.isStarted = true)
    (he : s.writeCursor.entries = recordsOf snap cfg snap.keys)
    (hcur : s.writeCursor.cur = (recordsOf snap cfg ks.reverse).getLast?)
    (hl : LocksAhead cfg s.lockCursor (locksOf snap cfg ks)) :
    Yields snap cfg s (walk id (backwardVisit snap cfg) ks) := by
  induction ks generalizing s dk with
  | nil => exact yields_exhausted hs (pass_exhausted hcur hl)
  | cons k ks ih =>
    have hkeys' : snap.keys = ks.reverse ++ (k :: dk) := by simpa using hkeys
    have h := keysAround hd hkeys'
    have hrec : recordsOf snap cfg (k :: ks).reverse =
        recordsOf snap cfg ks.reverse ++ versions k (records snap cfg k) := by
      simp [recordsOf]
    rw [hrec] at hcur
    by_cases hrs : records snap cfg k = []
    · -- without a record the key is passed over together with its lock
      have hskip : backwardVisit snap cfg k = .skip := if_pos hrs
      rw [walk, hskip]
      rw [hrs, versions, map_nil, append_nil] at hcur
      have hdk' : Passed snap cfg (k :: dk) := by
        refine forall_mem_cons.mpr ⟨?_, hdk⟩
        simp [hrs, Stuck, found, latest]
      cases hlock : heldLock snap cfg k with
      | none =>
        have hsame : locksOf snap cfg (k :: ks) = locksOf snap cfg ks := by
          simp [locksOf, hlock]
        exact ih hkeys' hdk' hs he hcur (hsame ▸ hl)
      | some lock =>
        have hw : ∀ e, s.writeCursor.cur = some e → cfg.Before k e.key := by
          intro e hce
          have hmem := key_mem_of_mem_recordsOf (mem_of_getLast? (hcur.symm.trans hce))
          exact h.before _ (by simpa using hmem)
        obtain ⟨hpass, hl'⟩ := pass_at_lock hlock hw hl h.before
        have hs' : (s.advanceLockCursor cfg).isStarted = true := hs
        exact Yields.again hs hs' hpass (ih hkeys' hdk' hs' he hcur hl')
    · obtain ⟨q, hq⟩ := exists_mem_of_ne_nil _ hrs
      have hne : versions k (records snap cfg k) ≠ [] := by simpa [versions] using hrs
      obtain ⟨e, hce, hek⟩ : ∃ e, s.writeCursor.cur = some e ∧ e.key = k := by
        rw [getLast?_append_of_ne_nil _ hne, getLast?_eq_some_getLast hne] at hcur
        exact ⟨_, hcur, (mem_versions.mp (getLast_mem hne)).1⟩
      obtain ⟨s₁, hw₁, hs₁, hl₁, hpass⟩ :=
        pass_at_write hce hek hl h.before (withinBound_of_mem_records hd hq)
      rw [hs] at hs₁
      cases hb : blocking snap cfg k with
      | some lock =>
        have hstop : backwardVisit snap cfg k = .stop (.locked lock) := by
          simp [backwardVisit, hrs, hb]
        rw [walk, hstop]
        have hfail : Passes snap cfg s (some (.failed k (.locked lock))) s₁ :=
          ⟨0, by rw [hpass, hb]⟩
        exact yields_failed hs hfail
      | none =>
        obtain ⟨n, c', hwrite, hentries, hcur'⟩ := handleWrite_backward hd
          (he.trans h.recordsOf_eq) h.recordsOf_sorted h.records_below h.records_above hrs
          fun p hp => (mem_records.mp hp).1
        have hpass' : s.pass snap cfg n =
            some (s₁.conclude k (found snap cfg k (records snap cfg k), c')) := by
          rw [hpass, hb, hwrite]
          rfl
        by_cases hstuck : Stuck cfg (records snap cfg k)
        · have hs' : ({ s₁ with writeCursor := c' } : Scanner).isStarted = true := hs₁
          rw [found, hstuck.2] at hpass'
          rw [if_pos hstuck] at hcur'
          have hwalk : walk id (backwardVisit snap cfg) (k :: ks) =
              if recordsOf snap cfg dk = [] then some ([], none) else none := by
            rw [walk, backwardVisit, if_neg hrs, hb]
            simp only [hstuck, if_true, h.endsAt_iff hb hstuck]
            by_cases hend : recordsOf snap cfg dk = []
            · rw [if_pos hend, if_pos hend]
            · rw [if_neg hend, if_neg hend]
          rw [hwalk]
          exact Yields.again hs hs' ⟨n, hpass'⟩
            (yields_after_stuck hd h hdk hstuck hs' (hentries.trans he) hcur' hl₁)
        · have hvisit : backwardVisit snap cfg k =
              visit (found snap cfg k (records snap cfg k)) := by
            simp [backwardVisit, hrs, hb, hstuck]
          rw [if_neg hstuck] at hcur'
          refine yields_of_conclude hs hs₁ ⟨n, hpass'⟩ rfl hvisit fun hok => ?_
          exact ih hkeys' (forall_mem_cons.mpr ⟨⟨hstuck, hok⟩, hdk⟩) hs₁
            (hentries.trans he) hcur' hl₁

theorem locksAhead_of_at_reverse (hd : cfg.desc = true) {c : Cursor LockEntry} {l : LockEntry}
    {L B : List LockEntry} (h : c.At L.reverse (l :: B)) : LocksAhead cfg (some c) (l :: L) := by
  have hadv : ∀ c : Cursor LockEntry, cfg.advance c = c.prev := by
    simp [ScannerConfig.advance, hd]
  induction L generalizing c l B with
  | nil =>
    refine ⟨h.cur, ?_⟩
    rw [Option.map_some, hadv]
    exact h.prev_first.cur
  | cons l' L ih =>
    refine ⟨h.cur, ?_⟩
    rw [Option.map_some, hadv]
    rw [List.reverse_cons] at h
    exact ih h.prev

theorem yields_newScanner_backward (hd : cfg.desc = true) : Yields snap cfg (newScanner snap cfg)
      (walk id (backwardVisit snap cfg) (scanOrder snap cfg)) := by
  have horder : scanOrder snap cfg = snap.keys.reverse := by simp [scanOrder, hd]
  have hstart : (newScanner snap cfg).initialSeek cfg =
      { writeCursor := (newScanner snap cfg).writeCursor.seekToLast
        lockCursor := (newScanner snap cfg).lockCursor.map seekToLast
        isStarted := true } := by
    simp [Scanner.initialSeek, hd, newScanner]
  refine Yields.start ?_ (by rw [hstart])
  rw [hstart, horder]
  refine yields_backward hd (by simp : snap.keys = snap.keys.reverse.reverse ++ [])
    (by simp [Passed]) rfl rfl ?_ ?_
  · rw [reverse_reverse]
    exact cur_seekToLast _
  · by_cases hsi : cfg.isolationLevel = .si
    · have hlocks : locksOf snap cfg snap.keys.reverse = (lockEntries snap cfg).reverse := by
        simp [lockEntries, locksOf, heldLock, hsi, filterMap_reverse]
      rw [hlocks, newScanner, if_pos hsi]
      cases hrev : (lockEntries snap cfg).reverse with
      | nil =>
        have hnil : lockEntries snap cfg = [] := by simpa using hrev
        simp [LocksAhead, cur, seekToLast, hnil]
      | cons l L =>
        have hentries : lockEntries snap cfg = L.reverse ++ [l] := by
          rw [← reverse_reverse (lockEntries snap cfg), hrev, reverse_cons]
        exact locksAhead_of_at_reverse hd (at_seekToLast hentries)
    · have hlocks : locksOf snap cfg snap.keys.reverse = [] := by
        simp [locksOf, heldLock, hsi]
      rw [hlocks, newScanner, if_neg hsi]
      rfl

def SettlesKeys (snap : Snapshot) (cfg : ScannerConfig) : Prop :=
  ∀ k ∈ snap.keys,
    (∀ j ∈ snap.keys, k < j → blocking snap cfg j = none ∧ ¬EndsAt snap cfg j) →
      if (blocking snap cfg k).isSome then records snap cfg k ≠ []
      else if Stuck cfg (records snap cfg k) then EndsAt snap cfg k ∧
        ∀ j ∈ snap.keys, j ≤ k → blocking snap cfg j = none ∧ expected snap cfg j = none
      else found snap cfg k (records snap cfg k) = .ok (expected snap cfg k)

instance (snap : Snapshot) (cfg : ScannerConfig) : Decidable (SettlesKeys snap cfg) :=
  inferInstanceAs (Decidable (∀ k ∈ snap.keys, _))

theorem pointRead_eq_skip_iff : pointRead snap cfg k = .skip ↔
    blocking snap cfg k = none ∧ expected snap cfg k = none := by
  unfold pointRead
  cases hb : blocking snap cfg k with
  | some lock => simp
  | none => cases expected snap cfg k <;> simp [visit]

theorem stuck_nil : ¬Stuck cfg [] := by simp [Stuck]

theorem backwardVisit_eq_finish_iff : backwardVisit snap cfg k = .finish ↔ EndsAt snap cfg k := by
  unfold backwardVisit
  by_cases hrs : records snap cfg k = []
  · simp [hrs, EndsAt, stuck_nil]
  · rw [if_neg hrs]
    cases hb : blocking snap cfg k with
    | some lock => simp [EndsAt, hb]
    | none =>
      by_cases hstuck : Stuck cfg (records snap cfg k)
      · by_cases hends : EndsAt snap cfg k <;> simp [hstuck, hends]
      · rcases hf : found snap cfg k (records snap cfg k) with why | _ | v <;>
          simp [hstuck, EndsAt, visit]

theorem backwardVisit_agrees_iff {P : Prop} :
    (backwardVisit snap cfg k = pointRead snap cfg k ∨ EndsAt snap cfg k ∧ P) ↔
      if (blocking snap cfg k).isSome then records snap cfg k ≠ []
      else if Stuck cfg (records snap cfg k) then EndsAt snap cfg k ∧ P
      else found snap cfg k (records snap cfg k) = .ok (expected snap cfg k) := by
  unfold backwardVisit
  cases hb : blocking snap cfg k with
  | some lock =>
    have hends : ¬EndsAt snap cfg k := by simp [EndsAt, hb]
    by_cases hrs : records snap cfg k = [] <;> simp [pointRead, hb, hrs, hends]
  | none =>
    have hread : pointRead snap cfg k = visit (.ok (expected snap cfg k)) := by
      rw [pointRead, hb]
    by_cases hstuck : Stuck cfg (records snap cfg k)
    · have hrs : records snap cfg k ≠ [] := fun hrs => stuck_nil (hrs ▸ hstuck)
      by_cases hends : EndsAt snap cfg k
      · cases hv : expected snap cfg k <;> simp [hrs, hstuck, hends, hread, hv, visit]
      · cases hv : expected snap cfg k <;> simp [hrs, hstuck, hends, hread, hv, visit]
    · have hends : ¬EndsAt snap cfg k := fun hends => hstuck hends.2.1
      have hskip : (if records snap cfg k = [] then Visit.skip
          else visit (found snap cfg k (records snap cfg k))) =
          visit (found snap cfg k (records snap cfg k)) := by
        by_cases hrs : records snap cfg k = []
        · simp [hrs, found, latest, visit]
        · simp [hrs]
      simp only [hstuck, hends, if_false, false_and, or_false, Option.isSome_none,
        Bool.false_eq_true, hread, hskip]
      exact visit_injective.eq_iff

theorem scansPointReads_iff_walk_keys (hd : cfg.desc = true) : ScansPointReads snap cfg ↔
    walk id (backwardVisit snap cfg) (scanOrder snap cfg) =
      walk id (pointRead snap cfg) (scanOrder snap cfg) :=
  scansPointReads_iff (map_id _) (yields_newScanner_backward hd)

/-- **When a backward scan returns the point reads of its range.** -/
theorem scansPointReads_backward_iff (hd : cfg.desc = true) :
    ScansPointReads snap cfg ↔ SettlesKeys snap cfg := by
  have hsorted : (scanOrder snap cfg).Pairwise fun i j => cfg.Before (id i) (id j) :=
    scanOrder_sorted snap cfg
  have hbefore : ∀ i j, cfg.Before i j ↔ j < i := by simp [Before, hd]
  rw [scansPointReads_iff_walk_keys hd,
    walk_eq_iff cfg.before_asymm hsorted fun k _ => pointRead_isPlain k]
  simp only [id_eq, hbefore, not_lt, mem_scanOrder, pointRead_ne_stop_iff,
    pointRead_eq_skip_iff, ne_eq, backwardVisit_eq_finish_iff, backwardVisit_agrees_iff]
  rfl

def rolledBack : Snapshot := Snapshot.ofModifies
  [.putWrite [1] 3 { writeType := .rollback, startTS := 3 },
    .putWrite [2] 3 { writeType := .put, startTS := 2, shortValue := some [8] }] (by decide)

def descending : ScannerConfig := { readTS := 5, desc := true }

def emptyRange : ScannerConfig :=
  { descending with lowerBound := some [2], upperBound := some [2] }

theorem backward_scan_loops :
    (∀ fuel, (newScanner rolledBack descending).collect rolledBack descending fuel = none) ∧
      ¬ScansPointReads rolledBack descending ∧
      (newScanner rolledBack emptyRange).collect rolledBack emptyRange 5 =
        some ([([2], [8])], none) := by
  have hyields : Yields rolledBack descending (newScanner rolledBack descending) none :=
    yields_newScanner_backward rfl
  have hnone : ∀ fuel,
      (newScanner rolledBack descending).collect rolledBack descending fuel = none := by
    intro fuel
    cases hc : (newScanner rolledBack descending).collect rolledBack descending fuel with
    | none => rfl
    | some r => exact absurd ((hyields r).mp ⟨fuel, hc⟩) (by simp)
  refine ⟨hnone, ?_, by decide⟩
  rintro ⟨fuel, r, hr, -⟩
  exact absurd (hr.symm.trans (hnone fuel)) (by simp)

def settled : Snapshot := Snapshot.ofModifies
  [.putWrite [1] 3 { writeType := .put, startTS := 2, shortValue := some [9] },
    .putLock [1] { lockType := .put, primary := [1], startTS := 4, ttl := 3000 },
    .putWrite [2] 5 { writeType := .rollback, startTS := 5 },
    .putWrite [2] 2 { writeType := .put, startTS := 1 },
    .putValue [2] 1 [8],
    .putWrite [3] 4 { writeType := .delete, startTS := 3 },
    .putWrite [4] 9 { writeType := .put, startTS := 8, shortValue := some [7] },
    .putWrite [4] 3 { writeType := .put, startTS := 2, shortValue := some [6] }] (by decide)

theorem scansPointReads_settled : ScansPointReads settled descending :=
  (scansPointReads_backward_iff rfl).mpr (by decide)

end Mvcc
