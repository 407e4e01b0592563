/-
Garbage collection of old versions (`internal/storage/gc/gc.go`).

Of the versions at or below the safe point only the newest Put stays, unless a Delete is newer.
-/
import Gookv.Batch

open Txntypes Mvcc

namespace Gc

open Versions

open Option

open LastWrite

inductive GcState
  | rewind
  | removeIdempotent
  | removeAll
  deriving DecidableEq

structure GCInfo where
  foundVersions : ℕ := 0
  deletedVersions : ℕ := 0
  isCompleted : Bool := true
  deriving DecidableEq

structure Walk where
  state : GcState := .rewind
  ts : TimeStamp := tsMax
  info : GCInfo := {}
  modifies : List Modify := []
  deleteMarker : Option TimeStamp := none

def Walk.found (w : Walk) : Walk :=
  { w with info := { w.info with foundVersions := w.info.foundVersions + 1 } }

def Walk.deleteWrite (w : Walk) (key : Key) (commitTS : TimeStamp) : Walk :=
  { w with
    modifies := w.modifies ++ [.deleteWrite key commitTS]
    info := { w.info with deletedVersions := w.info.deletedVersions + 1 } }

def Walk.deleteValue (w : Walk) (key : Key) (startTS : TimeStamp) : Walk :=
  { w with modifies := w.modifies ++ [.deleteValue key startTS] }

/-- A version met in the state `removeIdempotent`: whether the walk goes on, and how. -/
def removeIdempotent (snap : Store) (key : Key) (commitTS : TimeStamp) (write : Write)
    (w : Walk) : Bool × Walk :=
  match write.writeType with
  | .put => (true, { w with state := .removeAll, ts := commitTS - 1 })
  | .delete =>
    match seekWrite snap key (commitTS - 1) with
    | none => (false, w.deleteWrite key commitTS)
    | some _ =>
      (true, { w with deleteMarker := some commitTS, state := .removeAll, ts := commitTS - 1 })
  | .lock | .rollback => (true, { w.deleteWrite key commitTS with ts := commitTS - 1 })

def removeAll (key : Key) (commitTS : TimeStamp) (write : Write) (w : Walk) : Walk :=
  let w := w.deleteWrite key commitTS
  let w := if write.writeType = .put ∧ write.shortValue = none then
    w.deleteValue key write.startTS else w
  { w with ts := commitTS - 1 }

def visit (snap : Store) (key : Key) (safePoint commitTS : TimeStamp) (write : Write)
    (w : Walk) : Bool × Walk :=
  match w.state with
  | .rewind =>
    if safePoint < commitTS then (true, { w with ts := commitTS - 1 })
    else removeIdempotent snap key commitTS write { w with state := .removeIdempotent }
  | .removeIdempotent => removeIdempotent snap key commitTS write w
  | .removeAll => (true, removeAll key commitTS write w)

def gcLoop (snap : Store) (key : Key) (safePoint : TimeStamp) : ℕ → Walk → Option Walk
  | 0, _ => none
  | fuel + 1, w =>
    match seekWrite snap key w.ts with
    | none => some w
    | some (commitTS, write) =>
      match visit snap key safePoint commitTS write w.found with
      | (true, w') => gcLoop snap key safePoint fuel w'
      | (false, w') => some w'

def Walk.finish (w : Walk) (key : Key) : Walk :=
  match w.deleteMarker with
  | some deleteMarkerTS => w.deleteWrite key deleteMarkerTS
  | none => w

/-- Collect the garbage of one key; a version at timestamp `0` sends the walk back to the newest. -/
def gc (snap : Store) (key : Key) (safePoint : TimeStamp) : Option (GCInfo × List Modify) :=
  (gcLoop snap key safePoint ((snap key).writes.entries.length + 1) {}).map fun w =>
    ((w.finish key).info, (w.finish key).modifies)

/-! ### What the walk writes -/

def removal (key : Key) (q : TimeStamp × Write) : List Modify :=
  .deleteWrite key q.1 :: if q.2.writeType = .put ∧ q.2.shortValue = none then
    [.deleteValue key q.2.startTS] else []

def gcOps (key : Key) : List (TimeStamp × Write) → List Modify
  | [] => []
  | (commitTS, write) :: rest =>
    match write.writeType with
    | .put => rest.flatMap (removal key)
    | .delete => rest.flatMap (removal key) ++ [.deleteWrite key commitTS]
    | .lock | .rollback => .deleteWrite key commitTS :: gcOps key rest

variable {rest : List (TimeStamp × Write)} {x : Modify} {c : TimeStamp} {q : TimeStamp × Write}
  {k : Key}

variable {ts : TimeStamp} {w : Write}

section
variable {s : Store} {k : Key} {sp t : TimeStamp}

theorem upTo_pred
    (h : (s k).writes.upTo t = (c, w) :: rest) (hc : c ≠ 0) : (s k).writes.upTo (c - 1) = rest := by
  refine upTo_of_cons h fun a => ?_
  rw [← le_prev_iff hc, prev, if_neg hc]

variable {write : Write} {n : ℕ}

theorem gcLoop_cons {w : Walk} (h : (s k).writes.upTo w.ts = (c, write) :: rest) :
    gcLoop s k sp (n + 1) w = match visit s k sp c write w.found with
      | (true, w') => gcLoop s k sp n w'
      | (false, w') => some w' := by
  rw [gcLoop, seekWrite, seek, h]
  rfl

theorem gcLoop_nil {w : Walk} (h : (s k).writes.upTo w.ts = []) :
    gcLoop s k sp (n + 1) w = some w := by
  rw [gcLoop, seekWrite, seek, h]
  rfl

theorem ne_zero_of_upTo (hpos : ∀ q ∈ (s k).writes.entries, q.1 ≠ 0)
    (h : (s k).writes.upTo t = (c, write) :: rest) : c ≠ 0 :=
  hpos (c, write) (((s k).writes.upTo_suffix t).mem (by simp [h]))

variable {l : List (TimeStamp × Write)}

theorem gcLoop_removeAll (sp : TimeStamp) (hpos : ∀ q ∈ (s k).writes.entries, q.1 ≠ 0) :
    ∀ {n : ℕ} {w : Walk}, w.state = .removeAll →
      (s k).writes.upTo w.ts = l → l.length < n →
      ∃ w', gcLoop s k sp n w = some w' ∧
        w'.modifies = w.modifies ++ l.flatMap (removal k) ∧ w'.deleteMarker = w.deleteMarker := by
  induction l with
  | nil =>
    intro n w _ hl hn
    obtain ⟨n, rfl⟩ := Nat.exists_eq_succ_of_ne_zero (Nat.pos_iff_ne_zero.mp hn)
    exact ⟨w, gcLoop_nil hl, by simp, rfl⟩
  | cons q rest ih =>
    intro n w hst hl hn
    obtain ⟨c, write⟩ := q
    obtain ⟨n, rfl⟩ := Nat.exists_eq_succ_of_ne_zero (Nat.ne_zero_of_lt hn)
    have hrest := upTo_pred hl (ne_zero_of_upTo hpos hl)
    have hvisit : visit s k sp c write w.found = (true, removeAll k c write w.found) := by
      simp [visit, Walk.found, hst]
    have hmods : (removeAll k c write w.found).modifies = w.modifies ++ removal k (c, write) := by
      unfold removeAll removal Walk.deleteWrite Walk.deleteValue Walk.found
      dsimp only
      split <;> simp
    have hrec : (removeAll k c write w.found).state = .removeAll ∧
        (removeAll k c write w.found).deleteMarker = w.deleteMarker ∧
        (removeAll k c write w.found).ts = c - 1 := by
      unfold removeAll Walk.deleteWrite Walk.deleteValue Walk.found
      dsimp only
      split <;> exact ⟨hst, rfl, rfl⟩
    obtain ⟨w', hw', hm', hd'⟩ := ih (n := n) hrec.1 (by rw [hrec.2.2, hrest])
      (by simpa using hn)
    refine ⟨w', ?_, ?_, hd'.trans hrec.2.1⟩
    · rw [gcLoop_cons hl, hvisit]
      exact hw'
    · rw [hm', hmods, List.flatMap_cons, List.append_assoc]

theorem gcLoop_removeIdempotent (sp : TimeStamp) (hpos : ∀ q ∈ (s k).writes.entries, q.1 ≠ 0) :
    ∀ {n : ℕ} {w : Walk}, w.state = .removeIdempotent →
      w.deleteMarker = none → (s k).writes.upTo w.ts = l → l.length < n →
      ∃ w', gcLoop s k sp n w = some w' ∧
        (w'.finish k).modifies = w.modifies ++ gcOps k l := by
  induction l with
  | nil =>
    intro n w _ hm hl hn
    obtain ⟨n, rfl⟩ := Nat.exists_eq_succ_of_ne_zero (Nat.pos_iff_ne_zero.mp hn)
    exact ⟨w, gcLoop_nil hl, by simp [Walk.finish, hm, gcOps]⟩
  | cons q rest ih =>
    intro n w hst hm hl hn
    obtain ⟨c, write⟩ := q
    obtain ⟨n, rfl⟩ := Nat.exists_eq_succ_of_ne_zero (Nat.ne_zero_of_lt hn)
    have hlen : rest.length < n := by simpa using hn
    have hrest := upTo_pred hl (ne_zero_of_upTo hpos hl)
    have hvisit : visit s k sp c write w.found = removeIdempotent s k c write w.found := by
      simp [visit, Walk.found, hst]
    rw [gcLoop_cons hl, hvisit]
    cases hty : write.writeType with
    | put =>
      obtain ⟨w', hw', hm', hd'⟩ := gcLoop_removeAll sp hpos
        (w := { w.found with state := .removeAll, ts := c - 1 }) rfl hrest hlen
      refine ⟨w', by simpa [removeIdempotent, hty] using hw', ?_⟩
      have hnone : w'.deleteMarker = none := hd'.trans hm
      simp only [Walk.finish, hnone, gcOps, hty]
      exact hm'
    | delete =>
      cases rest with
      | nil =>
        -- an orphaned Delete ends the walk
        have hseek : seekWrite s k (c - 1) = none := by
          rw [seekWrite, seek, hrest]
          rfl
        refine ⟨w.found.deleteWrite k c, by simp [removeIdempotent, hty, hseek], ?_⟩
        simp [Walk.finish, Walk.deleteWrite, Walk.found, hm, gcOps, hty]
      | cons r rest =>
        have hseek : seekWrite s k (c - 1) = some r := by
          rw [seekWrite, seek, hrest]
          rfl
        obtain ⟨w', hw', hm', hd'⟩ := gcLoop_removeAll sp hpos
          (w := { w.found with deleteMarker := some c, state := .removeAll, ts := c - 1 })
          rfl hrest hlen
        refine ⟨w', by simpa [removeIdempotent, hty, hseek] using hw', ?_⟩
        have hsome : w'.deleteMarker = some c := hd'
        simp only [Walk.finish, hsome, Walk.deleteWrite, hm', gcOps, hty, Walk.found,
          List.append_assoc]
    | lock | rollback =>
      obtain ⟨w', hw', hm'⟩ := ih (n := n)
        (w := { w.found.deleteWrite k c with ts := c - 1 }) hst hm hrest hlen
      refine ⟨w', by simpa [removeIdempotent, hty] using hw', ?_⟩
      simp [hm', Walk.deleteWrite, Walk.found, gcOps, hty]

theorem gcLoop_rewind (sp : TimeStamp) (hpos : ∀ q ∈ (s k).writes.entries, q.1 ≠ 0) :
    ∀ {n : ℕ} {w : Walk}, w.state = .rewind →
      w.deleteMarker = none → (s k).writes.upTo w.ts = l → l.length < n →
      ∃ w', gcLoop s k sp n w = some w' ∧
        (w'.finish k).modifies = w.modifies ++ gcOps k (l.dropWhile fun q => sp < q.1) := by
  induction l with
  | nil =>
    intro n w _ hm hl hn
    obtain ⟨n, rfl⟩ := Nat.exists_eq_succ_of_ne_zero (Nat.pos_iff_ne_zero.mp hn)
    exact ⟨w, gcLoop_nil hl, by simp [Walk.finish, hm, gcOps]⟩
  | cons q rest ih =>
    intro n w hst hm hl hn
    obtain ⟨c, write⟩ := q
    by_cases hc : sp < c
    · obtain ⟨n, rfl⟩ := Nat.exists_eq_succ_of_ne_zero (Nat.ne_zero_of_lt hn)
      obtain ⟨w', hw', hm'⟩ := ih (n := n) (w := { w.found with ts := c - 1 }) hst hm
        (upTo_pred hl (ne_zero_of_upTo hpos hl)) (by simpa using hn)
      refine ⟨w', ?_, ?_⟩
      · rw [gcLoop_cons hl]
        simpa [visit, Walk.found, hst, hc] using hw'
      · rw [hm', List.dropWhile_cons_of_pos (by simpa using hc)]
        rfl
    · -- from the first version at or below the safe point on, the state is the next one
      have hsame : gcLoop s k sp n w =
          gcLoop s k sp n { w with state := .removeIdempotent } := by
        obtain ⟨n, rfl⟩ := Nat.exists_eq_succ_of_ne_zero (Nat.ne_zero_of_lt hn)
        rw [gcLoop_cons hl, gcLoop_cons (w := { w with state := .removeIdempotent }) hl]
        simp [visit, Walk.found, hst, hc]
      rw [hsame, List.dropWhile_cons_of_neg (by simpa using hc)]
      exact gcLoop_removeIdempotent sp hpos rfl hm hl hn

theorem gc_eq (sp : TimeStamp) (hpos : ∀ q ∈ (s k).writes.entries, q.1 ≠ 0) :
    ∃ info, gc s k sp = some (info, gcOps k ((s k).writes.upTo sp)) := by
  have hall : (s k).writes.upTo tsMax = (s k).writes.entries :=
    upTo_eq_entries fun q => le_tsMax q.1
  obtain ⟨w', hw', hm'⟩ := gcLoop_rewind sp hpos (w := {}) rfl rfl hall
    (Nat.lt_succ_self _)
  refine ⟨(w'.finish k).info, ?_⟩
  rw [gc, hw', map_some, hm']
  rfl

theorem gcLoop_eq_none {z : TimeStamp × Write} (sp : TimeStamp)
    (hz : z ∈ (s k).writes.entries) (hz0 : z.1 = 0) : ∀ (n : ℕ) (w : Walk), gcLoop s k sp n w = none
  | 0, _ => rfl
  | n + 1, w => by
    have hseek : ∀ ts, ∃ q, seekWrite s k ts = some q := by
      intro ts
      have hmem : z ∈ (s k).writes.upTo ts := Versions.mem_upTo.mpr ⟨hz, by simp [hz0]⟩
      cases h : seekWrite s k ts with
      | some q => exact ⟨q, rfl⟩
      | none =>
        rw [seekWrite, seek, List.head?_eq_none_iff] at h
        exact absurd hmem (by simp [h])
    obtain ⟨⟨c, write⟩, hq⟩ := hseek w.ts
    obtain ⟨older, holder⟩ := hseek (c - 1)
    have hvisit : (visit s k sp c write w.found).1 = true := by
      unfold visit removeIdempotent
      rw [holder]
      grind
    rw [gcLoop, hq]
    dsimp only
    cases hv : visit s k sp c write w.found with
    | mk more w' =>
      rw [hv] at hvisit
      obtain rfl : more = true := hvisit
      exact gcLoop_eq_none sp hz hz0 n w'

theorem gc_eq_some_iff {ms : List Modify} : (∃ info, gc s k sp = some (info, ms)) ↔
      (∀ q ∈ (s k).writes.entries, q.1 ≠ 0) ∧ ms = gcOps k ((s k).writes.upTo sp) := by
  constructor
  · rintro ⟨info, h⟩
    have hpos : ∀ q ∈ (s k).writes.entries, q.1 ≠ 0 := by
      intro q hq hq0
      rw [gc, gcLoop_eq_none sp hq hq0] at h
      cases h
    obtain ⟨info', h'⟩ := gc_eq sp hpos
    rw [h, some_inj, Prod.mk.injEq] at h'
    exact ⟨hpos, h'.2⟩
  · rintro ⟨hpos, rfl⟩
    exact gc_eq sp hpos

end

/-! ### What is left -/

def survivor (r : Row) (sp : TimeStamp) : Option (TimeStamp × Write) :=
  (r.writes.newest (fun q => q.2.isDataChanged) sp).filter fun q => q.2.writeType = .put

theorem removal_of_not_put (h : q.2.writeType ≠ .put) :
    removal k q = [.deleteWrite k q.1] := by
  simp [removal, h]

theorem gcOps_of_not_data (h : w.isDataChanged = false) :
    gcOps k ((c, w) :: rest) = .deleteWrite k c :: gcOps k rest := by
  rw [gcOps]
  cases hty : w.writeType with
  | put | delete => simp [Write.isDataChanged, hty] at h
  | lock => rfl
  | rollback => rfl

theorem mem_gcOps : ∀ {l : List (TimeStamp × Write)}, (l.Pairwise fun a b => b.1 < a.1) →
      (x ∈ gcOps k l ↔ ∃ q ∈ l, x ∈ removal k q ∧
        (l.find? fun q => q.2.isDataChanged).filter (fun q => q.2.writeType = .put) ≠ some q)
  | [], _ => by simp [gcOps]
  | (c, w) :: rest, hl => by
    obtain ⟨hc, hrest⟩ := List.pairwise_cons.mp hl
    have hne : ∀ q ∈ rest, q ≠ (c, w) := by
      rintro q hq rfl
      exact lt_irrefl _ (hc _ hq)
    cases hd : w.isDataChanged with
    | false =>
      have hrem : removal k (c, w) = [.deleteWrite k c] := by
        refine removal_of_not_put fun hty => ?_
        simp [Write.isDataChanged, show w.writeType = .put from hty] at hd
      -- the record itself is not the newest data record
      have hself : (rest.find? fun q => q.2.isDataChanged).filter
          (fun q => q.2.writeType = .put) ≠ some (c, w) := by
        intro h
        exact hne _ (List.mem_of_find?_eq_some (Option.filter_eq_some_iff.mp h).1) rfl
      rw [gcOps_of_not_data hd, List.mem_cons, mem_gcOps hrest]
      simp only [List.find?_cons, hd, List.exists_mem_cons_iff, hrem, List.mem_singleton,
        ne_eq, hself, not_false_eq_true, and_true]
    | true =>
      rw [gcOps]
      cases hty : w.writeType with
      | put =>
        simp only [List.find?_cons, hd, filter_some, hty, List.mem_flatMap,
          decide_true, if_true, ne_eq, some_inj]
        constructor
        · rintro ⟨q, hq, hx⟩
          exact ⟨q, List.mem_cons_of_mem _ hq, hx, (hne q hq).symm⟩
        · rintro ⟨q, hq, hx, hcq⟩
          exact ⟨q, (List.mem_cons.mp hq).resolve_left (Ne.symm hcq), hx⟩
      | delete =>
        have hrem : removal k (c, w) = [.deleteWrite k c] :=
          removal_of_not_put (by simp [hty])
        simp [hty, hd, filter_some, hrem, or_comm]
      | lock | rollback => simp [Write.isDataChanged, hty] at hd

section
variable {s : Store} {k : Key} {sp : TimeStamp}

def collected (s : Store) (k : Key) (sp : TimeStamp) : Store :=
  applyModifies s (gcOps k ((s k).writes.upTo sp))

def Removed (r : Row) (sp : TimeStamp) (q : TimeStamp × Write) : Prop :=
  q ∈ r.writes.entries ∧ q.1 ≤ sp ∧ survivor r sp ≠ some q

theorem mem_ops : x ∈ gcOps k ((s k).writes.upTo sp) ↔
    ∃ q, Removed (s k) sp q ∧ x ∈ removal k q := by
  rw [mem_gcOps ((s k).writes.upTo_sorted sp)]
  constructor
  · rintro ⟨q, hq, hx, hs⟩
    obtain ⟨h1, h2⟩ := Versions.mem_upTo.mp hq
    exact ⟨q, ⟨h1, h2, hs⟩, hx⟩
  · rintro ⟨q, ⟨h1, h2, hs⟩, hx⟩
    exact ⟨q, Versions.mem_upTo.mpr ⟨h1, h2⟩, hx, hs⟩

theorem mem_removal : x ∈ removal k q ↔ x = .deleteWrite k q.1 ∨
      (q.2.writeType = .put ∧ q.2.shortValue = none) ∧ x = .deleteValue k q.2.startTS := by
  unfold removal
  by_cases h : q.2.writeType = .put ∧ q.2.shortValue = none <;> simp [h]

theorem key_of_mem_ops (hx : x ∈ gcOps k ((s k).writes.upTo sp)) : x.key = k := by
  obtain ⟨q, -, hx⟩ := mem_ops.mp hx
  rcases mem_removal.mp hx with rfl | ⟨-, rfl⟩ <;> rfl

theorem collected_of_ne {k' : Key} (h : k' ≠ k) : collected s k sp k' = s k' :=
  applyModifies_of_forall_ne fun _ hx hxk => h (hxk.symm.trans (key_of_mem_ops hx))

theorem collected_lock : (collected s k sp k).lock = (s k).lock := by
  rw [collected, applyModifies_lock, eq_none_iff.mpr, getD_none]
  intro x hx
  obtain ⟨q, -, hx⟩ := mem_ops.mp hx
  rcases mem_removal.mp hx with rfl | ⟨-, rfl⟩ <;> rfl

theorem mem_collected : q ∈ (collected s k sp k).writes.entries ↔
    q ∈ (s k).writes.entries ∧ ¬Removed (s k) sp q := by
  -- all operations of the collection remove what is there
  have hconst : ∀ x ∈ gcOps k ((s k).writes.upTo sp), ∀ y,
      x.recordAt k q.1 = some y → y = none := by
    intro x hx y hy
    obtain ⟨r, -, hx⟩ := mem_ops.mp hx
    rcases mem_removal.mp hx with rfl | ⟨-, rfl⟩
    · exact (Option.some.inj (Option.ite_none_right_eq_some.mp hy).2).symm
    · exact absurd hy (by simp [Modify.recordAt])
  have hlast : LastWrite (Modify.recordAt k q.1) (gcOps k ((s k).writes.upTo sp)) = some none ↔
      ∃ r, Removed (s k) sp r ∧ r.1 = q.1 := by
    rw [eq_some_iff_of_const hconst]
    constructor
    · rintro ⟨-, x, hx, hy⟩
      obtain ⟨r, hr, hx⟩ := mem_ops.mp hx
      rcases mem_removal.mp hx with rfl | ⟨-, rfl⟩
      · exact ⟨r, hr, (Option.ite_none_right_eq_some.mp hy).1.2⟩
      · exact absurd hy (by simp [Modify.recordAt])
    · rintro ⟨r, hr, hrq⟩
      exact ⟨rfl, _, mem_ops.mpr ⟨r, hr, mem_removal.mpr (Or.inl rfl)⟩,
        by simp [Modify.recordAt, hrq]⟩
  have hq : ∀ v : Versions TimeStamp Write, q ∈ v.entries ↔ v.get q.1 = some q.2 :=
    fun v => Versions.get_eq_some_iff.symm
  rw [hq, collected, applyModifies_get]
  cases hl : LastWrite (Modify.recordAt k q.1) (gcOps k ((s k).writes.upTo sp)) with
  | none =>
    rw [getD_none, ← hq]
    refine ⟨fun h => ⟨h, fun hr => ?_⟩, fun h => h.1⟩
    exact absurd (hl.symm.trans (hlast.mpr ⟨q, hr, rfl⟩)) (by simp)
  | some y =>
    obtain ⟨x, hx, hxy⟩ := exists_of_eq_some hl
    obtain rfl := hconst x hx y hxy
    obtain ⟨r, hr, hrq⟩ := hlast.mp hl
    rw [getD_some]
    refine ⟨fun h => absurd h (by simp), fun h => absurd ?_ h.2⟩
    have heq : r = q := Prod.ext hrq (eq_of_mem (t := q.1) (hrq ▸ hr.1) h.1)
    exact heq ▸ hr

theorem collected_values_of_removed (hr : Removed (s k) sp q)
    (hp : q.2.writeType = .put) (hv : q.2.shortValue = none) :
    (collected s k sp k).values q.2.startTS = none := by
  rw [collected, applyModifies_values]
  have hlast : LastWrite (Modify.valueAt k q.2.startTS) (gcOps k ((s k).writes.upTo sp)) =
      some none := by
    refine (eq_some_iff_of_const fun x hx y hy => ?_).mpr ⟨rfl, _,
      mem_ops.mpr ⟨q, hr, mem_removal.mpr (Or.inr ⟨⟨hp, hv⟩, rfl⟩)⟩, by simp [Modify.valueAt]⟩
    obtain ⟨r, -, hx⟩ := mem_ops.mp hx
    rcases mem_removal.mp hx with rfl | ⟨-, rfl⟩
    · exact absurd hy (by simp [Modify.valueAt])
    · exact (Option.some.inj (Option.ite_none_right_eq_some.mp hy).2).symm
  rw [hlast, getD_some]

theorem collected_values_of_forall {t : TimeStamp}
    (h : ∀ q, Removed (s k) sp q → q.2.writeType = .put → q.2.shortValue = none →
      q.2.startTS ≠ t) : (collected s k sp k).values t = (s k).values t := by
  rw [collected, applyModifies_values, eq_none_iff.mpr, getD_none]
  intro x hx
  obtain ⟨q, hq, hx⟩ := mem_ops.mp hx
  rcases mem_removal.mp hx with rfl | ⟨⟨hp, hv⟩, rfl⟩
  · rfl
  · simp [Modify.valueAt, h q hq hp hv]

theorem survivor_of_mem_collected (hq : q ∈ (collected s k sp k).writes.entries) (hle : q.1 ≤ sp) :
    survivor (s k) sp = some q := by
  obtain ⟨h1, h2⟩ := mem_collected.mp hq
  by_contra hs
  exact h2 ⟨h1, hle, hs⟩

theorem JumpsSound.collected (h : JumpsSound (s k)) : JumpsSound (collected s k sp k) := by
  intro q hq hd hj
  obtain ⟨hlt, hskip⟩ := h q (mem_collected.mp hq).1 hd hj
  exact ⟨hlt, fun r hr => hskip r (mem_collected.mp hr).1⟩

theorem newest_collected (hts : sp ≤ ts) :
    (((collected s k sp k).writes.newest (fun q => q.2.isDataChanged) ts).filter
      fun q => q.2.writeType = .put) = ((s k).writes.newest (fun q => q.2.isDataChanged) ts).filter
      fun q => q.2.writeType = .put := by
  cases hn : (s k).writes.newest (fun q => q.2.isDataChanged) ts with
  | none =>
    have hnone : (collected s k sp k).writes.newest (fun q => q.2.isDataChanged) ts = none := by
      rw [newest_eq_none_iff] at hn ⊢
      exact fun r hr => hn r (mem_collected.mp hr).1
    rw [hnone]
  | some q =>
    obtain ⟨⟨hq1, hq2, hq3⟩, hmax⟩ := Versions.newest_eq_some_iff.mp hn
    by_cases hrem : Removed (s k) sp q
    · -- a removed newest record is a Delete at or below the safe point, and nothing is left
      obtain ⟨-, hqsp, hsurv⟩ := hrem
      have hnew : (s k).writes.newest (fun q => q.2.isDataChanged) sp = some q :=
        Versions.newest_eq_some_iff.mpr
          ⟨⟨hq1, hqsp, hq3⟩, fun r hr hrs hd => hmax r hr (hrs.trans hts) hd⟩
      have hput : q.2.writeType ≠ .put := fun hp => hsurv (by simp [survivor, hnew, hp])
      have hnone : (collected s k sp k).writes.newest (fun q => q.2.isDataChanged) ts = none := by
        rw [newest_eq_none_iff]
        intro r hr hrts
        by_contra hd
        have hle := hmax r (mem_collected.mp hr).1 hrts (by simpa using hd)
        have hs := survivor_of_mem_collected hr (hle.trans hqsp)
        rw [survivor, hnew, filter_some, if_neg (by simpa using hput)] at hs
        cases hs
      rw [hnone, filter_some, if_neg (by simpa using hput), filter_none]
    · have hnew : (collected s k sp k).writes.newest (fun q => q.2.isDataChanged) ts = some q :=
        Versions.newest_eq_some_iff.mpr ⟨⟨mem_collected.mpr ⟨hq1, hrem⟩, hq2, hq3⟩,
          fun r hr hrts hd => hmax r (mem_collected.mp hr).1 hrts hd⟩
      rw [hnew]

end

/-! ### Reads from the safe point on -/

def PutsDistinct (r : Row) : Prop :=
  ∀ q₁ ∈ r.writes.entries, ∀ q₂ ∈ r.writes.entries, q₁.2.writeType = .put →
    q₂.2.writeType = .put → q₁.2.startTS = q₂.2.startTS → q₁ = q₂

structure Collects (s s' : Store) (k : Key) (sp : TimeStamp) : Prop where
  reads : ∀ pg : PointGetter, sp ≤ pg.ts → pg.get s' k = pg.get s k
  others : ∀ k', k' ≠ k → s' k' = s k'
  deleted : ∀ q ∈ (s k).writes.entries, q ∉ (s' k).writes.entries →
    q.2.writeType = .put → q.2.shortValue = none → (s' k).values q.2.startTS = none
  kept : ∀ t, (∀ q ∈ (s k).writes.entries, q ∉ (s' k).writes.entries →
    q.2.writeType = .put → q.2.shortValue = none → q.2.startTS ≠ t) →
    (s' k).values t = (s k).values t
  one : ∀ q₁ ∈ (s' k).writes.entries, ∀ q₂ ∈ (s' k).writes.entries,
    q₁.1 ≤ sp → q₂.1 ≤ sp → q₁ = q₂
  put : ∀ q ∈ (s' k).writes.entries, q.1 ≤ sp → q.2.writeType = .put
  again : ∃ info, gc s' k sp = some (info, [])

section
variable {s : Store} {k : Key} {sp : TimeStamp}

theorem not_mem_collected (hq : q ∈ (s k).writes.entries) :
    q ∉ (collected s k sp k).writes.entries ↔ Removed (s k) sp q := by
  rw [mem_collected, not_and, not_not]
  exact ⟨fun h => h hq, fun h _ => h⟩

theorem writeValue_collected (hput : PutsDistinct (s k))
    (hq : q ∈ (collected s k sp k).writes.entries) (hp : q.2.writeType = .put) :
    writeValue (collected s k sp) k q.2 = writeValue s k q.2 := by
  unfold writeValue getValue
  cases hv : q.2.shortValue with
  | some v => rfl
  | none =>
    dsimp only
    refine collected_values_of_forall fun r hr hrp _ hst => (mem_collected.mp hq).2 ?_
    exact hput r hr.1 q (mem_collected.mp hq).1 hrp hp hst ▸ hr

theorem visibleValue_collected (hj : JumpsSound (s k)) (hput : PutsDistinct (s k)) (hts : sp ≤ ts) :
    visibleValue (collected s k sp) k ts = visibleValue s k ts := by
  unfold visibleValue
  have hnew := newest_collected (s := s) (k := k) hts
  rw [getWrite_eq_newest hj, getWrite_eq_newest (JumpsSound.collected hj), hnew]
  cases hw : ((s k).writes.newest (fun q => q.2.isDataChanged) ts).filter
      fun q => q.2.writeType = .put with
  | none => rfl
  | some q =>
    rw [hw] at hnew
    obtain ⟨hq, hp⟩ := Option.filter_eq_some_iff.mp hnew
    exact writeValue_collected hput (Versions.newest_eq_some_iff.mp hq).1.1 (by simpa using hp)

theorem gcOps_collected : gcOps k ((collected s k sp k).writes.upTo sp) = [] := by
  rw [List.eq_nil_iff_forall_not_mem]
  intro x hx
  obtain ⟨q, ⟨hq, hle, hs⟩, -⟩ := mem_ops.mp hx
  have hsurv := survivor_of_mem_collected hq hle
  refine hs ?_
  rw [survivor, newest_collected le_rfl]
  exact hsurv

/-- **A collection keeps every read from the safe point on**, removes the values of the
large Puts it removes and no other, leaves at most one version at or below the safe
point, a Put, and has nothing to do the second time.  The walk returns when no version
is at timestamp `0`. -/
theorem gc_preserves_reads (s : Store) (k : Key) (sp : TimeStamp)
    (hpos : ∀ q ∈ (s k).writes.entries, q.1 ≠ 0) (hput : PutsDistinct (s k))
    (hj : JumpsSound (s k)) :
    ∃ info ms, gc s k sp = some (info, ms) ∧ Collects s (applyModifies s ms) k sp := by
  obtain ⟨info, hgc⟩ := gc_eq sp hpos
  refine ⟨info, _, hgc, ?_⟩
  change Collects s (collected s k sp) k sp
  constructor
  · intro pg hts
    have hlock : pg.blockingLock (collected s k sp) k = pg.blockingLock s k := by
      unfold PointGetter.blockingLock loadLock
      rw [collected_lock]
    rw [PointGetter.get, PointGetter.get, hlock, visibleValue_collected hj hput hts]
  · exact fun k' hk' => collected_of_ne hk'
  · exact fun q hq hq' hp hv =>
      collected_values_of_removed ((not_mem_collected hq).mp hq') hp hv
  · intro t h
    refine collected_values_of_forall fun q hq hp hv => h q hq.1 ?_ hp hv
    exact (not_mem_collected hq.1).mpr hq
  · intro q₁ h₁ q₂ h₂ hle₁ hle₂
    have hs₁ := survivor_of_mem_collected h₁ hle₁
    rw [survivor_of_mem_collected h₂ hle₂] at hs₁
    exact (Option.some.inj hs₁).symm
  · intro q hq hle
    have hs := survivor_of_mem_collected hq hle
    simpa using (Option.filter_eq_some_iff.mp hs).2
  · obtain ⟨info', hgc'⟩ := gc_eq (s := collected s k sp) (k := k) sp
      fun q hq => hpos q (mem_collected.mp hq).1
    rw [gcOps_collected] at hgc'
    exact ⟨info', hgc'⟩

end

def versionsWith (lastChange : LastChange) : Store :=
  applyModifies Store.empty
    [.putWrite [1] 3 { writeType := .put, startTS := 2, shortValue := some [3] },
     .putWrite [1] 5 { writeType := .put, startTS := 4, shortValue := some [5] },
     .putWrite [1] 10 { writeType := .rollback, startTS := 10, lastChange := lastChange }]

theorem gc_preserves_reads_versions : ∃ info ms,
    gc (versionsWith ⟨5, 32⟩) [1] 6 = some (info, ms) ∧ ms = [.deleteWrite [1] 3] ∧
      Collects (versionsWith ⟨5, 32⟩) (applyModifies (versionsWith ⟨5, 32⟩) ms) [1] 6 := by
  obtain ⟨info, ms, hgc, hc⟩ := gc_preserves_reads (versionsWith ⟨5, 32⟩) [1] 6 (by decide)
    (by unfold PutsDistinct; decide) (by unfold JumpsSound; decide)
  refine ⟨info, ms, hgc, ?_, hc⟩
  have hms : gc (versionsWith ⟨5, 32⟩) [1] 6 = some (⟨3, 1, true⟩, [.deleteWrite [1] 3]) := rfl
  rw [hms] at hgc
  exact (Prod.mk.inj (Option.some.inj hgc)).2.symm

theorem gc_loses_jump_target : (∀ q ∈ (versionsWith ⟨3, 32⟩ [1]).writes.entries, q.1 ≠ 0) ∧
      PutsDistinct (versionsWith ⟨3, 32⟩ [1]) ∧
      ∃ info ms, gc (versionsWith ⟨3, 32⟩) [1] 6 = some (info, ms) ∧
        PointGetter.get { ts := 10 } (versionsWith ⟨3, 32⟩) [1] = .ok (some [3]) ∧
        PointGetter.get { ts := 10 } (applyModifies (versionsWith ⟨3, 32⟩) ms) [1] =
          .ok none :=
  ⟨by decide, by unfold PutsDistinct; decide, ⟨3, 1, true⟩, [.deleteWrite [1] 3], rfl, rfl, rfl⟩

end Gc
