/-
What a scan should return.
-/
import Gookv.Scanner

open Txntypes

namespace Mvcc

namespace ScannerConfig

def Before (cfg : ScannerConfig) (k k' : Key) : Prop := if cfg.desc then k' < k else k < k'

theorem before_asymm (cfg : ScannerConfig) (k k' : Key) (h : cfg.Before k k') :
    ¬cfg.Before k' k := by
  unfold Before at h ⊢
  cases hd : cfg.desc with
  | false | true =>
    simp only [hd] at h ⊢
    exact h.not_gt

def shown (cfg : ScannerConfig) (v : Value) : Value := if cfg.keyOnly then [] else v

end ScannerConfig

variable (snap : Snapshot) (cfg : ScannerConfig)

/-- The keys of the snapshot in the order of the scan. -/
def scanOrder : List Key := if cfg.desc then snap.keys.reverse else snap.keys

theorem scanOrder_sorted : (scanOrder snap cfg).Pairwise cfg.Before := by
  unfold scanOrder ScannerConfig.Before
  cases hd : cfg.desc with
  | false => simpa using snap.sorted
  | true => simpa [List.pairwise_reverse] using snap.sorted

variable {snap cfg} in
theorem mem_scanOrder {k : Key} : k ∈ scanOrder snap cfg ↔ k ∈ snap.keys := by
  unfold scanOrder
  split <;> simp

def UnblockedBefore (k : Key) : Prop :=
  ∀ j, cfg.inRange j = true → cfg.Before j k →
    ∀ err, cfg.pointGetter.get snap.rows j ≠ .error err

/-- The result of reading the keys of the range one by one, up to the first lock. -/
structure IsPointReads (r : ScanResult) : Prop where
  sorted : r.1.Pairwise fun p q => cfg.Before p.1 q.1
  mem_iff : ∀ k v, (k, v) ∈ r.1 ↔ cfg.inRange k = true ∧ UnblockedBefore snap cfg k ∧
    ∃ u, cfg.pointGetter.get snap.rows k = .ok (some u) ∧ v = cfg.shown u
  stop_iff : ∀ k why, r.2 = some (k, why) ↔ cfg.inRange k = true ∧ UnblockedBefore snap cfg k ∧
    ∃ lock, cfg.pointGetter.get snap.rows k = .error ⟨k, lock⟩ ∧ why = .locked lock

/-- The scan comes to its end, with the point reads of the range. -/
def ScansPointReads : Prop :=
  ∃ fuel r, (newScanner snap cfg).collect snap cfg fuel = some r ∧ IsPointReads snap cfg r

/-! ### As a walk over the keys -/

def blocking (k : Key) : Option Lock :=
  if cfg.inRange k then cfg.pointGetter.blockingLock snap.rows k else none

def expected (k : Key) : Option Value :=
  if cfg.inRange k then (visibleValue snap.rows k cfg.readTS).map cfg.shown else none

def latest (rs : List (TimeStamp × Write)) : Option (TimeStamp × Write) :=
  rs.find? fun q => q.1 ≤ cfg.readTS ∧ q.2.isDataChanged

def found (k : Key) (rs : List (TimeStamp × Write)) : Except ScanFailure (Option Value) :=
  match latest cfg rs with
  | none => .ok none
  | some q =>
    if q.2.writeType = .put then (putValue snap cfg k q.2).map some else .ok none

def visit : Except ScanFailure (Option Value) → Visit Value ScanFailure
  | .error why => .stop why
  | .ok (some v) => .yield v
  | .ok none => .skip

theorem visit_injective : Function.Injective visit := by
  rintro (a | _ | a) (b | _ | b) h <;> simp_all [visit]

/-- The decision of the point read. -/
def pointRead (k : Key) : Visit Value ScanFailure :=
  match blocking snap cfg k with
  | some lock => .stop (.locked lock)
  | none => visit (.ok (expected snap cfg k))

variable {snap cfg} {k : Key}

theorem pointRead_isPlain (k : Key) : (pointRead snap cfg k).IsPlain := by
  unfold pointRead
  cases blocking snap cfg k with
  | some lock => trivial
  | none => cases expected snap cfg k <;> trivial

theorem pointRead_of_not_mem (h : k ∉ snap.keys) : pointRead snap cfg k = .skip := by
  have hrow := snap.support k h
  have hb : blocking snap cfg k = none := by
    simp [blocking, PointGetter.blockingLock, loadLock, hrow, Store.empty]
  have hv : visibleValue snap.rows k cfg.readTS = none := by
    simp [visibleValue, getWrite, hrow, Store.empty, Versions.upTo, getWriteLoop]
  simp [pointRead, hb, expected, hv, visit]

theorem get_eq (hk : cfg.inRange k = true) :
    cfg.pointGetter.get snap.rows k = match blocking snap cfg k with
      | some lock => .error ⟨k, lock⟩
      | none => .ok (visibleValue snap.rows k cfg.readTS) := by
  rw [blocking, if_pos hk]
  rfl

theorem pointRead_eq_yield_iff {v : Value} :
    pointRead snap cfg k = .yield v ↔ cfg.inRange k = true ∧
      ∃ u, cfg.pointGetter.get snap.rows k = .ok (some u) ∧ v = cfg.shown u := by
  by_cases hk : cfg.inRange k = true
  · rw [get_eq hk, pointRead]
    cases hb : blocking snap cfg k with
    | some lock => simp
    | none =>
      cases hv : visibleValue snap.rows k cfg.readTS with
      | none => simp [expected, hk, hv, visit]
      | some u => simp [expected, hk, hv, visit, eq_comm]
  · simp [pointRead, blocking, expected, hk, visit]

theorem pointRead_eq_stop_iff {why : ScanFailure} :
    pointRead snap cfg k = .stop why ↔ cfg.inRange k = true ∧
      ∃ lock, cfg.pointGetter.get snap.rows k = .error ⟨k, lock⟩ ∧ why = .locked lock := by
  by_cases hk : cfg.inRange k = true
  · rw [get_eq hk, pointRead]
    cases hb : blocking snap cfg k with
    | some lock =>
      simp only [hk, Visit.stop.injEq, Except.error.injEq, LockError.mk.injEq, true_and,
        exists_eq_left']
      exact eq_comm
    | none => cases hv : expected snap cfg k <;> simp [visit]
  · simp [pointRead, blocking, expected, hk, visit]

theorem pointRead_ne_stop_iff : (∀ why, pointRead snap cfg k ≠ .stop why) ↔
    blocking snap cfg k = none := by
  unfold pointRead
  cases hb : blocking snap cfg k with
  | some lock => simp
  | none => cases expected snap cfg k <;> simp [visit]

theorem unblockedBefore_iff : UnblockedBefore snap cfg k ↔
    ∀ j ∈ scanOrder snap cfg, cfg.Before j k → ∀ why, pointRead snap cfg j ≠ .stop why := by
  constructor
  · intro h j _ hjk why hstop
    obtain ⟨hj, lock, hget, -⟩ := pointRead_eq_stop_iff.mp hstop
    exact h j hj hjk _ hget
  · intro h j hj hjk err herr
    rw [get_eq hj] at herr
    cases hb : blocking snap cfg j with
    | none => simp [hb] at herr
    | some lock =>
      have hstop : pointRead snap cfg j = .stop (.locked lock) := by rw [pointRead, hb]
      have hmem : j ∈ snap.keys := by
        by_contra hmem
        rw [pointRead_of_not_mem hmem] at hstop
        exact absurd hstop (by simp)
      exact h j (mem_scanOrder.mpr hmem) hjk _ hstop

theorem isPointReads_iff {r : ScanResult} : IsPointReads snap cfg r ↔
    IsWalk cfg.Before (pointRead snap cfg) (scanOrder snap cfg) r := by
  have hmem : ∀ {k}, pointRead snap cfg k ≠ .skip → k ∈ scanOrder snap cfg := by
    intro k hk
    rw [mem_scanOrder]
    by_contra hnot
    exact hk (pointRead_of_not_mem hnot)
  have hyield : ∀ k v, (k ∈ scanOrder snap cfg ∧ pointRead snap cfg k = .yield v ∧
      UnblockedBefore snap cfg k) ↔ cfg.inRange k = true ∧ UnblockedBefore snap cfg k ∧
        ∃ u, cfg.pointGetter.get snap.rows k = .ok (some u) ∧ v = cfg.shown u := by
    intro k v
    constructor
    · rintro ⟨-, h, hu⟩
      obtain ⟨hk, hget⟩ := pointRead_eq_yield_iff.mp h
      exact ⟨hk, hu, hget⟩
    · rintro ⟨hk, hu, hget⟩
      have h := pointRead_eq_yield_iff.mpr ⟨hk, hget⟩
      exact ⟨hmem (by simp [h]), h, hu⟩
  have hstop : ∀ k why, (k ∈ scanOrder snap cfg ∧ pointRead snap cfg k = .stop why ∧
      UnblockedBefore snap cfg k) ↔ cfg.inRange k = true ∧ UnblockedBefore snap cfg k ∧
        ∃ lock, cfg.pointGetter.get snap.rows k = .error ⟨k, lock⟩ ∧ why = .locked lock := by
    intro k why
    constructor
    · rintro ⟨-, h, hu⟩
      obtain ⟨hk, hget⟩ := pointRead_eq_stop_iff.mp h
      exact ⟨hk, hu, hget⟩
    · rintro ⟨hk, hu, hget⟩
      have h := pointRead_eq_stop_iff.mpr ⟨hk, hget⟩
      exact ⟨hmem (by simp [h]), h, hu⟩
  constructor
  · rintro ⟨h1, h2, h3⟩
    refine ⟨h1, fun k v => ?_, fun k why => ?_⟩
    · rw [← unblockedBefore_iff, hyield]
      exact h2 k v
    · rw [← unblockedBefore_iff, hstop]
      exact h3 k why
  · rintro ⟨h1, h2, h3⟩
    refine ⟨h1, fun k v => ?_, fun k why => ?_⟩
    · rw [← hyield, unblockedBefore_iff]
      exact h2 k v
    · rw [← hstop, unblockedBefore_iff]
      exact h3 k why

theorem scansPointReads_iff {ι : Type*} {key : ι → Key} {l : List ι}
    {f : ι → Visit Value ScanFailure} (hl : l.map key = scanOrder snap cfg)
    (h : Yields snap cfg (newScanner snap cfg) (walk key f l)) : ScansPointReads snap cfg ↔
      walk key f l = walk key (fun i => pointRead snap cfg (key i)) l := by
  have hplain : ∀ k ∈ scanOrder snap cfg, (pointRead snap cfg k).IsPlain :=
    fun k _ => pointRead_isPlain k
  obtain ⟨r, hr⟩ := exists_walk id hplain
  have hwalk := isWalk_of_walk cfg.before_asymm (scanOrder_sorted snap cfg) hplain hr
  rw [walk_comp, hl, hr, ← h r]
  constructor
  · rintro ⟨n, r', hn, hr'⟩
    rw [(isPointReads_iff.mp hr').unique cfg.before_asymm hwalk] at hn
    exact ⟨n, hn⟩
  · rintro ⟨n, hn⟩
    exact ⟨n, r, hn, isPointReads_iff.mpr hwalk⟩

end Mvcc
