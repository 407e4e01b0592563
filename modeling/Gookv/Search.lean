/-
Binary search for the first index at which a predicate holds.

The predicate fails to the left of the interval and holds at its right end, or that is the end.
-/
import Mathlib

namespace Search

def loop (f : ℕ → Bool) : ℕ → ℕ → ℕ → ℕ
  | 0, i, _ => i
  | fuel + 1, i, j =>
    if i < j then
      let h := (i + j) / 2
      if f h then loop f fuel i h else loop f fuel (h + 1) j
    else i

/-- The first index below `n` at which `f` holds, or `n`. -/
def search (n : ℕ) (f : ℕ → Bool) : ℕ := loop f n 0 n

variable {f : ℕ → Bool} {n : ℕ}

theorem loop_spec (hmono : ∀ i j, i ≤ j → j < n → f i = true → f j = true) {fuel i j : ℕ}
    (hfuel : j - i ≤ fuel) (hij : i ≤ j) (hj : j ≤ n) (hleft : ∀ k < i, f k = false)
    (hright : ∀ k, j ≤ k → k < n → f k = true) :
    loop f fuel i j ≤ n ∧ (∀ k < loop f fuel i j, f k = false) ∧
      ∀ k, loop f fuel i j ≤ k → k < n → f k = true := by
  induction fuel generalizing i j with
  | zero =>
    obtain rfl : i = j := by omega
    exact ⟨hj, hleft, hright⟩
  | succ fuel ih =>
    rw [loop]
    by_cases hlt : i < j
    · rw [if_pos hlt]
      dsimp only
      by_cases hmid : f ((i + j) / 2) = true
      · rw [if_pos hmid]
        refine ih (by omega) (by omega) (by omega) hleft ?_
        intro k hk hkn
        exact hmono _ k hk hkn hmid
      · rw [if_neg hmid]
        refine ih (by omega) (by omega) hj ?_ hright
        intro k hk
        -- otherwise it would hold at the middle as well
        by_contra hfk
        rw [Bool.not_eq_false] at hfk
        exact hmid (hmono k _ (by omega) (by omega) hfk)
    · rw [if_neg hlt]
      obtain rfl : i = j := by omega
      exact ⟨hj, hleft, hright⟩

theorem search_spec (hmono : ∀ i j, i ≤ j → j < n → f i = true → f j = true) :
    search n f ≤ n ∧ (∀ k < search n f, f k = false) ∧
      ∀ k, search n f ≤ k → k < n → f k = true :=
  loop_spec hmono (Nat.sub_zero n).le (Nat.zero_le n) le_rfl (by simp) (by omega)

variable {α κ : Type*} [LinearOrder κ] (key : α → κ) (l : List α) (b : κ)

def firstAbove : ℕ := search l.length fun i => (l[i]?).any fun a => b < key a

variable {key l b}

theorem search_split (hl : l.Pairwise fun x y => key x < key y) :
    firstAbove key l b ≤ l.length ∧ (∀ a ∈ l.take (firstAbove key l b), key a ≤ b) ∧
      ∀ a ∈ l.drop (firstAbove key l b), b < key a := by
  have hmono : ∀ i j, i ≤ j → j < l.length → ((l[i]?).any fun a => b < key a) = true →
      ((l[j]?).any fun a => b < key a) = true := by
    intro i j hij hj hi
    rcases hij.lt_or_eq with hlt | rfl
    · have hi' : i < l.length := hlt.trans hj
      rw [List.getElem?_eq_getElem hi', Option.any_some, decide_eq_true_iff] at hi
      rw [List.getElem?_eq_getElem hj, Option.any_some, decide_eq_true_iff]
      exact hi.trans (List.pairwise_iff_getElem.mp hl i j hi' hj hlt)
    · exact hi
  obtain ⟨hlen, hbefore, hafter⟩ := search_spec hmono
  refine ⟨hlen, ?_, ?_⟩
  · intro a ha
    obtain ⟨i, hi, rfl⟩ := List.mem_take_iff_getElem.mp ha
    have hlen : i < l.length := by omega
    have h := hbefore i (by unfold firstAbove at hi; omega)
    rw [List.getElem?_eq_getElem hlen, Option.any_some, decide_eq_false_iff_not] at h
    exact not_lt.mp h
  · intro a ha
    obtain ⟨i, hi, rfl⟩ := List.mem_drop_iff_getElem.mp ha
    have hlen : firstAbove key l b + i < l.length := by omega
    have h := hafter (firstAbove key l b + i) (Nat.le_add_right _ _) hlen
    rwa [List.getElem?_eq_getElem hlen, Option.any_some, decide_eq_true_iff] at h

end Search
