/-
Group codes: strings cut into groups of one size, each followed by a marker.
-/
import Mathlib

/-- The group size, the filling letter and the markers by the number of real letters. -/
structure GroupCode (β : Type*) [LinearOrder β] where
  size : ℕ
  pad : β
  mark : ℕ → β
  size_pos : 0 < size
  pad_le : ∀ b, pad ≤ b
  mark_lt : ∀ i j, i < j → j ≤ size → mark i < mark j

namespace GroupCode

open List

variable {β : Type*} [LinearOrder β] (c : GroupCode β)

def encodeFrom (n : ℕ) : List β → List β
  | [] => List.replicate (c.size - n) c.pad ++ [c.mark n]
  | x :: xs =>
    if n + 1 = c.size then x :: c.mark c.size :: encodeFrom 0 xs else x :: encodeFrom (n + 1) xs

/-- The code of a string. -/
def encode (a : List β) : List β := c.encodeFrom 0 a

def continueFrom (n : ℕ) (xs : List β) : List β :=
  if n = c.size then c.mark c.size :: c.encodeFrom 0 xs else c.encodeFrom n xs

theorem encodeFrom_cons (n : ℕ) (x : β) (xs : List β) :
    c.encodeFrom n (x :: xs) = x :: c.continueFrom (n + 1) xs := by
  rw [encodeFrom, continueFrom]
  split <;> rfl

variable {c} {n j : ℕ} {a b s t : List β}

theorem encodeFrom_of_short (h : n + a.length < c.size) : c.encodeFrom n a =
      a ++ List.replicate (c.size - (n + a.length)) c.pad ++ [c.mark (n + a.length)] := by
  induction a generalizing n with
  | nil => rfl
  | cons x xs ih =>
    rw [length_cons] at h
    have hlen : n + (x :: xs).length = n + 1 + xs.length := by
      rw [length_cons]
      omega
    rw [encodeFrom, if_neg (by omega), ih (by omega), hlen]
    rfl

theorem pad_lt_continueFrom (hj : n < j) (hsize : j ≤ c.size) (ys : List β) :
    List.replicate (c.size - j) c.pad ++ c.mark n :: s < c.continueFrom j ys ++ t := by
  induction ys generalizing j with
  | nil =>
    rw [continueFrom]
    split
    · rename_i heq
      rw [heq, Nat.sub_self, replicate_zero, nil_append, cons_append]
      exact cons_lt_cons_iff.mpr (.inl (c.mark_lt n c.size (heq ▸ hj) le_rfl))
    · rw [encodeFrom, append_assoc]
      exact append_left_lt (cons_lt_cons_iff.mpr (.inl (c.mark_lt n j hj hsize)))
  | cons y ys ih =>
    rw [continueFrom]
    split
    · rename_i heq
      rw [heq, Nat.sub_self, replicate_zero, nil_append, cons_append]
      exact cons_lt_cons_iff.mpr (.inl (c.mark_lt n c.size (heq ▸ hj) le_rfl))
    · -- the padding is compared with the next letter
      rename_i hne
      rw [encodeFrom_cons, show c.size - j = (c.size - (j + 1)) + 1 by omega,
        replicate_succ, cons_append, cons_append, cons_lt_cons_iff]
      rcases (c.pad_le y).lt_or_eq with hlt | heq
      · exact .inl hlt
      · exact .inr ⟨heq, ih (by omega) (by omega)⟩

theorem nil_lt_cons (hn : n < c.size) (y : β) (ys : List β) :
    c.encodeFrom n [] ++ s < c.encodeFrom n (y :: ys) ++ t := by
  rw [encodeFrom_cons, encodeFrom, show c.size - n = (c.size - (n + 1)) + 1 by omega,
    replicate_succ, cons_append, cons_append, cons_append, append_assoc,
    cons_lt_cons_iff]
  rcases (c.pad_le y).lt_or_eq with hlt | heq
  · exact .inl hlt
  · exact .inr ⟨heq, pad_lt_continueFrom (Nat.lt_succ_self n) hn ys⟩

theorem encodeFrom_append_lt (hn : n < c.size) :
    c.encodeFrom n a ++ s < c.encodeFrom n b ++ t ↔ a < b ∨ a = b ∧ s < t := by
  -- along the strings; the position in the group is the same on both sides
  induction a generalizing n b with
  | nil =>
    rcases b with _ | ⟨y, ys⟩
    · have hsame : ∀ l : List β, l ++ s < l ++ t ↔ s < t := by
        intro l
        induction l with
        | nil => rfl
        | cons z l ih => simpa [cons_lt_cons_iff] using ih
      simp [hsame]
    · simp [nil_lt_cons hn]
  | cons x xs ih =>
    rcases b with _ | ⟨y, ys⟩
    · have h := (nil_lt_cons (s := t) (t := s) hn x xs).not_gt
      simp [h]
    · have hrest : c.continueFrom (n + 1) xs ++ s < c.continueFrom (n + 1) ys ++ t ↔
          xs < ys ∨ xs = ys ∧ s < t := by
        rw [continueFrom, continueFrom]
        split
        · rw [cons_append, cons_append, cons_lt_cons_iff, ih c.size_pos]
          simp
        · exact ih (by omega)
      rw [encodeFrom_cons, encodeFrom_cons, cons_append, cons_append,
        cons_lt_cons_iff, hrest, cons_lt_cons_iff, cons.injEq]
      tauto

theorem append_lt_append : c.encode a ++ s < c.encode b ++ t ↔ a < b ∨ a = b ∧ s < t :=
  encodeFrom_append_lt c.size_pos

theorem append_inj : c.encode a ++ s = c.encode b ++ t ↔ a = b ∧ s = t := by
  constructor
  · intro h
    have hab : a = b := by
      rcases lt_trichotomy a b with hlt | heq | hgt
      · exact absurd h (append_lt_append.mpr (.inl hlt)).ne
      · exact heq
      · exact absurd h.symm (append_lt_append.mpr (.inl hgt)).ne
    subst hab
    exact ⟨rfl, append_cancel_left h⟩
  · rintro ⟨rfl, rfl⟩
    rfl

theorem encode_lt : c.encode a < c.encode b ↔ a < b := by
  have h := append_lt_append (c := c) (a := a) (b := b) (s := []) (t := [])
  simpa using h

theorem encode_le : c.encode a ≤ c.encode b ↔ a ≤ b := by
  rw [← not_lt, encode_lt, not_lt]

theorem le_encodeFrom (htop : ∀ b, b ≤ c.mark c.size) (n k : ℕ) (s : List β) :
    s ≤ List.replicate k (c.mark c.size) ++ c.encodeFrom n s := by
  have hmore : ∀ (k : ℕ) (l : List β), replicate k (c.mark c.size) ++ c.mark c.size :: l =
      replicate (k + 1) (c.mark c.size) ++ l := by
    intro k l
    rw [replicate_succ', append_assoc, singleton_append]
  -- along the string; what the code is behind by is made of largest letters
  induction s generalizing n k with
  | nil => exact not_lt.mp (not_lt_nil _)
  | cons x xs ih =>
    have hrest : ∀ k, xs ≤ replicate k (c.mark c.size) ++ c.continueFrom (n + 1) xs := by
      intro k
      rw [continueFrom]
      split
      · rw [hmore]
        exact ih 0 (k + 1)
      · exact ih (n + 1) k
    rw [encodeFrom_cons, ← not_lt]
    rcases k with _ | k
    · rw [replicate_zero, nil_append, cons_lt_cons_iff]
      rintro (hlt | ⟨-, hlt⟩)
      · exact lt_irrefl x hlt
      · exact (hrest 0).not_gt hlt
    · rw [replicate_succ, cons_append, cons_lt_cons_iff]
      rintro (hlt | ⟨rfl, hlt⟩)
      · exact (htop x).not_gt hlt
      · rw [hmore] at hlt
        exact (hrest (k + 1)).not_gt hlt

end GroupCode
