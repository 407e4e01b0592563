/-
What a batch of operations leaves in each column family.

The operations of a batch are written in order, so what is found under a key
afterwards was left by the last operation of the batch that writes there.
-/
import Gookv.LastWrite
import Gookv.Mvcc

open Txntypes

namespace Mvcc

open Versions

/-- What an operation leaves in CF_WRITE at a key and timestamp, if it writes there. -/
def Modify.recordAt (k : Key) (ts : TimeStamp) : Modify → Option (Option Write)
  | .putWrite key commitTS write =>
    if key = k ∧ commitTS = ts then some (some write.reload) else none
  | .deleteWrite key commitTS => if key = k ∧ commitTS = ts then some none else none
  | _ => none

/-- What an operation leaves in CF_DEFAULT. -/
def Modify.valueAt (k : Key) (ts : TimeStamp) : Modify → Option (Option Value)
  | .putValue key startTS value => if key = k ∧ startTS = ts then some (some value) else none
  | .deleteValue key startTS => if key = k ∧ startTS = ts then some none else none
  | _ => none

/-- What an operation leaves in CF_LOCK. -/
def Modify.lockAt (k : Key) : Modify → Option (Option Lock)
  | .putLock key lock => if key = k then some (some lock.reload) else none
  | .unlockKey key => if key = k then some none else none
  | _ => none

theorem applyModifies_part {β : Type*} (part : Row → β) (f : Modify → Option β) {k : Key}
    (h : ∀ (s : Store) m, part (s.apply m k) = (f m).getD (part (s k))) (s : Store)
    (ms : List Modify) : part (applyModifies s ms k) = (LastWrite f ms).getD (part (s k)) := by
  rw [← LastWrite.foldl_getD]
  induction ms generalizing s with
  | nil => rfl
  | cons m ms ih =>
    have hcons : applyModifies s (m :: ms) = applyModifies (s.apply m) ms := rfl
    rw [hcons, ih, List.foldl_cons, h]

theorem applyModifies_get (s : Store) (ms : List Modify) (k : Key) (ts : TimeStamp) :
    (applyModifies s ms k).writes.get ts =
      (LastWrite (Modify.recordAt k ts) ms).getD ((s k).writes.get ts) := by
  refine applyModifies_part (fun r => r.writes.get ts) _ (fun s m => ?_) s ms
  by_cases hk : m.key = k
  · subst hk
    rw [Store.apply, Function.update_self]
    cases m with
    | putWrite key c w =>
      by_cases hc : c = ts
      · simp [Row.apply, Modify.recordAt, Modify.key, get_put, hc]
      · simp [Row.apply, Modify.recordAt, Modify.key, get_put, hc, Ne.symm hc]
    | deleteWrite key c =>
      by_cases hc : c = ts
      · simp [Row.apply, Modify.recordAt, Modify.key, get_erase, hc]
      · simp [Row.apply, Modify.recordAt, Modify.key, get_erase, hc, Ne.symm hc]
    | _ => rfl
  · rw [Store.apply_of_ne hk]
    cases m <;> simp_all [Modify.recordAt, Modify.key]

theorem applyModifies_values (s : Store) (ms : List Modify) (k : Key) (ts : TimeStamp) :
    (applyModifies s ms k).values ts =
      (LastWrite (Modify.valueAt k ts) ms).getD ((s k).values ts) := by
  refine applyModifies_part (fun r => r.values ts) _ (fun s m => ?_) s ms
  by_cases hk : m.key = k
  · subst hk
    rw [Store.apply, Function.update_self]
    cases m with
    | putValue key c v | deleteValue key c =>
      by_cases hc : c = ts
      · simp [Row.apply, Modify.valueAt, Modify.key, hc]
      · simp [Row.apply, Modify.valueAt, Modify.key, hc, Ne.symm hc]
    | _ => rfl
  · rw [Store.apply_of_ne hk]
    cases m <;> simp_all [Modify.valueAt, Modify.key]

theorem applyModifies_lock (s : Store) (ms : List Modify) (k : Key) :
    (applyModifies s ms k).lock = (LastWrite (Modify.lockAt k) ms).getD (s k).lock := by
  refine applyModifies_part (fun r => r.lock) _ (fun s m => ?_) s ms
  by_cases hk : m.key = k
  · subst hk
    rw [Store.apply, Function.update_self]
    cases m <;> simp [Row.apply, Modify.lockAt, Modify.key]
  · rw [Store.apply_of_ne hk]
    cases m <;> simp_all [Modify.lockAt, Modify.key]

end Mvcc
