/-
Cutting a range into pieces.

A range of a linear order has a least element, and an end that is not in it or no end at
all.  Cut at ascending points it falls into consecutive pieces.
-/
import Mathlib

namespace Pieces

variable {κ : Type*} [LinearOrder κ]

def Mem (x : κ) (p : κ × WithTop κ) : Prop := p.1 ≤ x ∧ (x : WithTop κ) < p.2

/-- The ranges between the points. -/
def pieces (hi : WithTop κ) : κ → List κ → List (κ × WithTop κ)
  | lo, [] => [(lo, hi)]
  | lo, k :: ks => (lo, ↑k) :: pieces hi k ks

/-- The points ascend, from above the start to below the end. -/
def Ascending (hi : WithTop κ) : κ → List κ → Prop
  | lo, [] => (lo : WithTop κ) < hi
  | lo, k :: ks => lo < k ∧ Ascending hi k ks

variable {hi : WithTop κ} {lo : κ} {ks : List κ}

section
variable (h : Ascending hi lo ks)
include h

theorem Ascending.lt_end : (lo : WithTop κ) < hi := by
  induction ks generalizing lo with
  | nil => exact h
  | cons k ks ih => exact (WithTop.coe_lt_coe.mpr h.1).trans (ih h.2)

theorem Ascending.lt_of_mem : ∀ k ∈ ks, lo < k := by
  induction ks generalizing lo with
  | nil => simp
  | cons k ks ih =>
    intro k' hk'
    rcases List.mem_cons.mp hk' with rfl | hk'
    · exact h.1
    · exact h.1.trans (ih h.2 k' hk')

theorem nonempty_of_ascending : ∀ p ∈ pieces hi lo ks, ∃ x, Mem x p := by
  induction ks generalizing lo with
  | nil =>
    intro p hp
    obtain rfl := List.mem_singleton.mp hp
    exact ⟨lo, le_rfl, h⟩
  | cons k ks ih =>
    intro p hp
    rcases List.mem_cons.mp hp with rfl | hp
    · exact ⟨lo, le_rfl, WithTop.coe_lt_coe.mpr h.1⟩
    · exact ih h.2 p hp

theorem exists_mem_pieces_iff {x : κ} : (∃ p ∈ pieces hi lo ks, Mem x p) ↔ Mem x (lo, hi) := by
  induction ks generalizing lo with
  | nil => simp [pieces]
  | cons k ks ih =>
    rw [pieces, List.exists_mem_cons_iff, ih h.2]
    have hk : (k : WithTop κ) < hi := h.2.lt_end
    constructor
    · rintro (⟨hlo, hx⟩ | ⟨hlo, hx⟩)
      · exact ⟨hlo, hx.trans hk⟩
      · exact ⟨h.1.le.trans hlo, hx⟩
    · rintro ⟨hlo, hx⟩
      by_cases hxk : x < k
      · exact .inl ⟨hlo, WithTop.coe_lt_coe.mpr hxk⟩
      · exact .inr ⟨not_lt.mp hxk, hx⟩

theorem ordered_of_ascending :
    (pieces hi lo ks).Pairwise fun p q => ∀ x y, Mem x p → Mem y q → x < y := by
  induction ks generalizing lo with
  | nil => exact List.pairwise_singleton _ _
  | cons k ks ih =>
    refine List.pairwise_cons.mpr ⟨fun q hq x y hx hy => ?_, ih h.2⟩
    have hxk : x < k := WithTop.coe_lt_coe.mp hx.2
    exact hxk.trans_le ((exists_mem_pieces_iff h.2).mp ⟨q, hq, hy⟩).1

end

end Pieces
