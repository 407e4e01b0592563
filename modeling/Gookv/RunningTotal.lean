/-
Running totals: where the weights of a list, added from the front, reach a number.
-/
import Mathlib

namespace RunningTotal

variable {α : Type*} (w : α → ℕ)

def total (l : List α) : ℕ := (l.map w).sum

/-- The first element at which the total is `n` or more. -/
def reach : ℕ → List α → Option α
  | _, [] => none
  | n, a :: l => if n ≤ w a then some a else reach (n - w a) l

@[simp] theorem total_nil : total w [] = 0 := rfl

@[simp] theorem total_cons (a : α) (l : List α) : total w (a :: l) = w a + total w l := rfl

variable {w} {n : ℕ} {l : List α} {a : α}

theorem total_filter_le (p : α → Prop) [DecidablePred p] : total w (l.filter p) ≤ total w l := by
  induction l with
  | nil => exact le_rfl
  | cons a l ih =>
    rw [List.filter_cons]
    split_ifs
    · exact Nat.add_le_add_left ih (w a)
    · exact ih.trans (Nat.le_add_left _ _)

theorem mem_of_reach (h : reach w n l = some a) : a ∈ l := by
  induction l generalizing n with
  | nil => cases h
  | cons b l ih =>
    rw [reach] at h
    split_ifs at h with hle
    · cases h
      exact List.mem_cons_self
    · exact List.mem_cons_of_mem b (ih h)

theorem reach_max_one (hpos : ∀ a ∈ l, 0 < w a) : reach w (max 1 n) l = reach w n l := by
  cases n with
  | succ n => rw [max_eq_right (Nat.succ_pos n)]
  | zero =>
    cases l with
    | nil => rfl
    | cons a l =>
      have ha : 0 < w a := hpos a List.mem_cons_self
      rw [reach, reach, if_pos (by omega), if_pos (Nat.zero_le _)]

theorem reach_append (hn : 0 < n) (l' : List α) : reach w n (l ++ l') =
      if n ≤ total w l then reach w n l else reach w (n - total w l) l' := by
  induction l generalizing n with
  | nil => rw [total_nil, if_neg (by omega), Nat.sub_zero, List.nil_append]
  | cons a l ih =>
    rw [List.cons_append, reach, reach, total_cons]
    by_cases hle : n ≤ w a
    · rw [if_pos hle, if_pos hle, if_pos (by omega)]
    · rw [if_neg hle, if_neg hle, ih (by omega), Nat.sub_sub]
      simp only [Nat.sub_le_iff_le_add']

theorem reach_holds_iff {p : α → Prop} [DecidablePred p] (hn : 0 < n)
    (hfirst : l.Pairwise fun a b => p b → p a) (h : reach w n l = some a) :
    p a ↔ n ≤ total w (l.filter p) := by
  induction l generalizing n with
  | nil => cases h
  | cons b l ih =>
    obtain ⟨hb, hl⟩ := List.pairwise_cons.mp hfirst
    by_cases hpb : p b
    · rw [List.filter_cons_of_pos (by simpa using hpb), total_cons]
      rw [reach] at h
      split_ifs at h with hle
      · cases h
        exact ⟨fun _ => by omega, fun _ => hpb⟩
      · rw [ih (by omega) hl h]
        omega
    · -- no element has the property then
      have hnone : ∀ c ∈ b :: l, ¬ p c := by
        intro c hc hpc
        rcases List.mem_cons.mp hc with rfl | hc
        · exact hpb hpc
        · exact hpb (hb c hc hpc)
      have hfilter : (b :: l).filter (fun c => p c) = [] :=
        List.filter_eq_nil_iff.mpr fun c hc => by simpa using hnone c hc
      rw [hfilter, total_nil]
      exact ⟨fun hpa => absurd hpa (hnone a (mem_of_reach h)), fun hle => by omega⟩

end RunningTotal
