/-
Ordered tables: the contents of an ordered key-value engine.

A table is a version chain read from the other end.
-/
import Gookv.Versions

/-- Records by key, in ascending order of the keys. -/
structure Table (κ α : Type*) [LinearOrder κ] where
  chain : Versions κᵒᵈ α

namespace Table

open List OrderDual

variable {κ α : Type*} [LinearOrder κ]

def empty : Table κ α := ⟨Versions.empty⟩

def toList (t : Table κ α) : List (κ × α) := t.chain.entries

/-- The record at a key. -/
def get (t : Table κ α) (k : κ) : Option α := t.chain.get (OrderDual.toDual k)

/-- Write a record, replacing the one that is there. -/
def put (t : Table κ α) (k : κ) (a : α) : Table κ α := ⟨t.chain.put (OrderDual.toDual k) a⟩

/-- Delete the record at a key. -/
def delete (t : Table κ α) (k : κ) : Table κ α := ⟨t.chain.erase (OrderDual.toDual k)⟩

/-- Delete the records with keys from `lo` on and below `hi`, the bounds taken literally. -/
def deleteRange (t : Table κ α) (lo hi : κ) : Table κ α :=
  ⟨t.chain.entries.filter fun p => ¬ (lo ≤ OrderDual.ofDual p.1 ∧ OrderDual.ofDual p.1 < hi),
    t.chain.sorted.filter _⟩

theorem sorted_toList (t : Table κ α) : t.toList.Pairwise fun p q => p.1 < q.1 := t.chain.sorted

theorem mem_toList {t : Table κ α} {k : κ} {a : α} : (k, a) ∈ t.toList ↔ t.get k = some a :=
  (Versions.get_eq_some_iff (v := t.chain) (t := toDual k)).symm

@[simp] theorem toList_empty : (empty : Table κ α).toList = [] := rfl

@[simp] theorem get_empty (k : κ) : (empty : Table κ α).get k = none := rfl

theorem get_put (t : Table κ α) (k k' : κ) (a : α) :
    (t.put k a).get k' = if k' = k then some a else t.get k' :=
  Versions.get_put t.chain (toDual k) (toDual k') a

theorem get_delete (t : Table κ α) (k k' : κ) :
    (t.delete k).get k' = if k' = k then none else t.get k' :=
  Versions.get_erase t.chain (toDual k) (toDual k')

theorem get_deleteRange (t : Table κ α) (lo hi k : κ) :
    (t.deleteRange lo hi).get k = if lo ≤ k ∧ k < hi then none else t.get k := by
  ext a
  rw [← mem_toList]
  have hmem : (k, a) ∈ (t.deleteRange lo hi).toList ↔
      (k, a) ∈ t.toList ∧ ¬ (lo ≤ k ∧ k < hi) := by
    exact mem_filter.trans (and_congr_right fun _ => decide_eq_true_iff)
  rw [hmem, mem_toList]
  split <;> simp_all

theorem toList_eq_nil_iff {t : Table κ α} : t.toList = [] ↔ ∀ k, t.get k = none := by
  constructor
  · intro h k
    rw [Option.eq_none_iff_forall_ne_some]
    intro a ha
    rw [← mem_toList, h] at ha
    cases ha
  · intro h
    rw [eq_nil_iff_forall_not_mem]
    rintro ⟨k, a⟩ hmem
    rw [mem_toList, h k] at hmem
    cases hmem

theorem le_of_getLast? {t : Table κ α} {p : κ × α} (hp : t.toList.getLast? = some p) {k : κ}
    (hk : t.get k ≠ none) : k ≤ p.1 := by
  obtain ⟨a, ha⟩ := Option.ne_none_iff_exists'.mp hk
  obtain ⟨l, hl⟩ := getLast?_eq_some_iff.mp hp
  have hsorted := t.sorted_toList
  rw [hl, pairwise_append] at hsorted
  have hmem := mem_toList.mpr ha
  rw [hl, mem_append, mem_singleton] at hmem
  rcases hmem with hmem | rfl
  · exact (hsorted.2.2 _ hmem p (by simp)).le
  · exact le_rfl

theorem toList_of_interval {t : Table ℕ α} {a n : ℕ} (h : ∀ k, t.get k ≠ none ↔ a ≤ k ∧ k < a + n) :
    t.toList.map Prod.fst = List.range' a n := by
  have hsorted : (t.toList.map Prod.fst).Pairwise (· < ·) :=
    pairwise_map.mpr t.sorted_toList
  have hmem : ∀ k, k ∈ t.toList.map Prod.fst ↔ k ∈ range' a n := by
    intro k
    rw [mem_range'_1, ← h, Option.ne_none_iff_exists', mem_map]
    constructor
    · rintro ⟨⟨k', v⟩, hkv, rfl⟩
      exact ⟨v, mem_toList.mp hkv⟩
    · rintro ⟨v, hv⟩
      exact ⟨(k, v), mem_toList.mpr hv, rfl⟩
  -- two ascending lists with the same members are the same list
  have hperm : (t.toList.map Prod.fst).Perm (range' a n) :=
    (perm_ext_iff_of_nodup (hsorted.imp fun h => h.ne) nodup_range').mpr hmem
  exact hperm.eq_of_pairwise (fun i j _ _ hij hji => absurd hij hji.not_gt) hsorted
    pairwise_lt_range'

end Table
