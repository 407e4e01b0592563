/-
The fate of a transaction on a key.

A key is untouched by a transaction, locked, and then committed or rolled back.  `Represents` says
that a row holds what the statuses of all transactions say; `Represents.prewritten`,
`Represents.committed` and `Represents.rolledBack` move one transaction to its next status.
-/
import Gookv.Actions

open Txntypes Mvcc

namespace Txn

open Function

/-- What has become of a transaction on a key. -/
inductive KeyStatus
  | absent
  | locked
  | committed (commitTS : TimeStamp)
  | rolledBack
  deriving DecidableEq

/-- The status a write record stands for. -/
def recordStatus (q : TimeStamp × Write) : KeyStatus :=
  if q.2.writeType = .rollback then .rolledBack else .committed q.1

/-- The row holds exactly what the statuses of the transactions say. -/
structure Represents (r : Row) (σ : TimeStamp → KeyStatus) : Prop where
  of_lock : ∀ lock, r.lock = some lock →
    σ lock.startTS = .locked ∧ lock.lockType ≠ .pessimistic
  lock_of : ∀ t, σ t = .locked → ∃ lock, r.lock = some lock ∧ lock.startTS = t
  of_record : ∀ q ∈ r.writes.entries, σ q.2.startTS = recordStatus q
  record_of : ∀ t c, σ t = .committed c ∨ σ t = .rolledBack ∧ c = t →
    ∃ w, (c, w) ∈ r.writes.entries ∧ w.startTS = t
  rollback_at : ∀ q ∈ r.writes.entries, q.2.writeType = .rollback → q.1 = q.2.startTS
  lt_of_committed : ∀ t c, σ t = .committed c → t < c

namespace Represents

variable {r : Row} {σ : TimeStamp → KeyStatus} {t c : TimeStamp} {q : TimeStamp × Write} {k : Key}
  {s : Store}

theorem empty : Represents {} fun _ => .absent where
  of_lock := by simp
  lock_of := by simp
  of_record := by simp
  record_of := by simp
  rollback_at := by simp
  lt_of_committed := by simp

theorem le_of_record (h : Represents r σ)
    (hq : q ∈ r.writes.entries) : q.2.startTS ≤ q.1 := by
  by_cases hw : q.2.writeType = .rollback
  · exact (h.rollback_at q hq hw).ge
  · have hs := h.of_record q hq
    rw [recordStatus, if_neg hw] at hs
    exact (h.lt_of_committed _ _ hs).le

theorem absent_or_locked (h : Represents r σ)
    (hrec : ∀ q ∈ r.writes.entries, q.2.startTS ≠ t) : σ t = .absent ∨ σ t = .locked := by
  cases hs : σ t with
  | absent => exact .inl rfl
  | locked => exact .inr rfl
  | committed c =>
    obtain ⟨w, hw, hwt⟩ := h.record_of t c (.inl hs)
    exact absurd hwt (hrec _ hw)
  | rolledBack =>
    obtain ⟨w, hw, hwt⟩ := h.record_of t t (.inr ⟨hs, rfl⟩)
    exact absurd hwt (hrec _ hw)

theorem getTxnCommitRecord_eq_none_iff (h : Represents (s k) σ) :
    getTxnCommitRecord s k t = none ↔ σ t = .absent ∨ σ t = .locked := by
  constructor
  · intro hnone
    refine h.absent_or_locked fun q hq hqt => ?_
    -- The lookup starts at the newest record and stops below the start timestamp.
    have hle : t ≤ q.1 := hqt ▸ h.le_of_record hq
    exact getTxnCommitRecord_eq_none hnone hq hle hqt
  · intro hs
    cases hr : getTxnCommitRecord s k t with
    | none => rfl
    | some q =>
      obtain ⟨hq, hqt⟩ := mem_of_getTxnCommitRecord hr
      have hst := h.of_record q hq
      rw [hqt, recordStatus] at hst
      rcases hs with hs | hs <;> rw [hs] at hst <;> split at hst <;> cases hst

theorem status_of_record (h : Represents (s k) σ)
    (hq : getTxnCommitRecord s k t = some q) : σ t = recordStatus q := by
  obtain ⟨hmem, hqt⟩ := mem_of_getTxnCommitRecord hq
  exact hqt ▸ h.of_record q hmem

section
variable (h : Represents r σ) {lock : Lock}
include h

theorem lock_eq_none_of_absent (ht : σ t = .absent)
    (hl : r.lock = some lock) : lock.startTS ≠ t := by
  rintro rfl
  exact absurd ((h.of_lock lock hl).1.symm.trans ht) (by simp)

theorem prewritten (m : Mutation) (hl : r.lock = none)
    (ht : σ lock.startTS = .absent) (hty : lock.lockType ≠ .pessimistic) :
    Represents (prewritten r lock m) (Function.update σ lock.startTS .locked) where
  of_lock l hl' := by
    rw [prewritten_lock, Option.some_inj] at hl'
    subst hl'
    exact ⟨by simp, hty⟩
  lock_of t ht' := by
    refine ⟨lock.reload, prewritten_lock _ _ _, ?_⟩
    by_contra hne
    have hne' : t ≠ lock.startTS := fun heq => hne heq.symm
    rw [update_of_ne hne'] at ht'
    obtain ⟨l, hl', -⟩ := h.lock_of t ht'
    exact absurd (hl.symm.trans hl') (by simp)
  of_record q hq := by
    rw [prewritten_writes] at hq
    have hne : q.2.startTS ≠ lock.startTS := by
      intro heq
      have hst := h.of_record q hq
      rw [heq, ht, recordStatus] at hst
      split at hst <;> cases hst
    rw [update_of_ne hne]
    exact h.of_record q hq
  record_of t c hs := by
    rw [prewritten_writes]
    have hne : t ≠ lock.startTS := by
      rintro rfl
      simp at hs
    rw [update_of_ne hne] at hs
    exact h.record_of t c hs
  rollback_at q hq := by
    rw [prewritten_writes] at hq
    exact h.rollback_at q hq
  lt_of_committed t c hs := by
    have hne : t ≠ lock.startTS := by
      rintro rfl
      simp at hs
    rw [update_of_ne hne] at hs
    exact h.lt_of_committed t c hs

theorem finish {r' : Row} {w : Write} (ht : σ w.startTS = .absent ∨ σ w.startTS = .locked)
    (hfree : ∀ q ∈ r.writes.entries, q.1 ≠ c)
    (hlock : r'.lock = r.lock.filter fun lock => lock.startTS ≠ w.startTS)
    (hwrites : r'.writes = r.writes.put c w) (hat : w.writeType = .rollback ∧ c = w.startTS ∨
      w.writeType ≠ .rollback ∧ w.startTS < c) :
    Represents r' (Function.update σ w.startTS (recordStatus (c, w))) := by
  have hmem : ∀ q, q ∈ r'.writes.entries ↔ q = (c, w) ∨ q ∈ r.writes.entries := by
    intro q
    rw [hwrites, Versions.mem_put]
    exact or_congr_right ⟨fun hq => hq.2, fun hq => ⟨hfree q hq, hq⟩⟩
  have hold : ∀ q ∈ r.writes.entries, q.2.startTS ≠ w.startTS := by
    intro q hq heq
    have hst := h.of_record q hq
    rw [heq, recordStatus] at hst
    rcases ht with ht | ht <;> rw [ht] at hst <;> split at hst <;> cases hst
  constructor
  case of_lock =>
    intro lock hl
    rw [hlock] at hl
    obtain ⟨hl1, hl2⟩ := Option.filter_eq_some_iff.mp hl
    rw [update_of_ne (by simpa using hl2)]
    exact h.of_lock lock hl1
  case lock_of =>
    intro t hst
    have hne : t ≠ w.startTS := by
      rintro rfl
      rw [update_self, recordStatus] at hst
      split at hst <;> cases hst
    rw [update_of_ne hne] at hst
    obtain ⟨lock, hl, hlt⟩ := h.lock_of t hst
    refine ⟨lock, ?_, hlt⟩
    rw [hlock, hl]
    simp [Option.filter, hlt, hne]
  case of_record =>
    intro q hq
    rcases (hmem q).mp hq with rfl | hq
    · rw [update_self]
    · rw [update_of_ne (hold q hq)]
      exact h.of_record q hq
  case record_of =>
    intro t c' hst
    by_cases hne : t = w.startTS
    · subst hne
      refine ⟨w, (hmem _).mpr (.inl ?_), rfl⟩
      rw [update_self, recordStatus] at hst
      rcases hat with ⟨hr, hc⟩ | ⟨hr, hc⟩
      · simp_all
      · simp_all
    · rw [update_of_ne hne] at hst
      obtain ⟨w', hw', hwt⟩ := h.record_of t c' hst
      exact ⟨w', (hmem _).mpr (.inr hw'), hwt⟩
  case rollback_at =>
    intro q hq hr
    rcases (hmem q).mp hq with rfl | hq
    · rcases hat with ⟨_, hc⟩ | ⟨hn, _⟩
      · exact hc
      · exact absurd hr hn
    · exact h.rollback_at q hq hr
  case lt_of_committed =>
    intro t c' hst
    by_cases hne : t = w.startTS
    · subst hne
      rw [update_self, recordStatus] at hst
      rcases hat with ⟨hr, hc⟩ | ⟨hr, hc⟩
      · simp_all
      · simp_all
    · rw [update_of_ne hne] at hst
      exact h.lt_of_committed t c' hst

theorem ne_of_mem (hc : ∀ t, σ t ≠ .committed c)
    (hr : σ c ≠ .rolledBack) : ∀ q ∈ r.writes.entries, q.1 ≠ c := by
  rintro q hq rfl
  have hst := h.of_record q hq
  rw [recordStatus] at hst
  split at hst
  · rename_i hw
    exact hr (h.rollback_at q hq hw ▸ hst)
  · exact hc _ hst

theorem committed (hl : r.lock = some lock)
    (hlt : lock.startTS < c) (hc : ∀ t, σ t ≠ .committed c) (hr : σ c ≠ .rolledBack) :
    Represents (committed r lock c) (Function.update σ lock.startTS (.committed c)) := by
  have hst : recordStatus (c, (commitWrite lock).reload) = .committed c :=
    if_neg (commitWrite_writeType_ne lock)
  rw [← hst]
  refine h.finish (w := (commitWrite lock).reload) (.inr (h.of_lock lock hl).1)
    (h.ne_of_mem hc hr) ?_ rfl (.inr ⟨commitWrite_writeType_ne lock, hlt⟩)
  rw [hl]
  simp [Option.filter]

theorem rolledBack (ht : σ t = .absent ∨ σ t = .locked) (hc : ∀ t', σ t' ≠ .committed t) :
    Represents (rolledBack r t) (Function.update σ t .rolledBack) := by
  have hr : σ t ≠ .rolledBack := by
    rcases ht with ht | ht <;> rw [ht] <;> simp
  exact h.finish (w := (rollbackWrite t).reload) ht (h.ne_of_mem hc hr) rfl rfl
    (.inl ⟨rfl, rfl⟩)

end

end Represents

end Txn
