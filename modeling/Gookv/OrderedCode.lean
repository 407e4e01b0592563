/-
Ordered codes: values written as strings that compare as the values do.
-/
import Mathlib

/-- The code `encode` with the decoder `decode` for values ordered by `r`. -/
structure OrderedCode {α β ε : Type*} [LinearOrder β] (r : α → α → Prop) (encode : α → List β)
    (decode : List β → Except ε (α × List β)) : Prop where
  append_lt : ∀ a b s t, encode a ++ s < encode b ++ t ↔ r a b ∨ a = b ∧ s < t
  decode_append : ∀ a s, decode (encode a ++ s) = .ok (a, s)
  eq_of_decode : ∀ bs a s, decode bs = .ok (a, s) → bs = encode a ++ s

namespace OrderedCode

open List

variable {α α' β ε ε' : Type*} [LinearOrder β]

theorem map_append_lt {neg : β → β} (hneg : ∀ x y, neg x < neg y ↔ y < x) {l l' : List β}
    (h : ∀ s t, l ++ s ≠ l' ++ t) (s t : List β) : l.map neg ++ s < l'.map neg ++ t ↔ l' < l := by
  induction l generalizing l' with
  | nil => exact absurd (by simp) (h l' [])
  | cons x l ih =>
    cases l' with
    | nil => exact absurd (by simp) (h [] (x :: l))
    | cons y l' =>
      simp only [map_cons, cons_append, cons_lt_cons_iff, hneg]
      by_cases hxy : x = y
      · subst hxy
        have htail : ∀ s t, l ++ s ≠ l' ++ t := by
          intro s t heq
          exact h s t (by rw [cons_append, cons_append, heq])
        rw [ih htail]
        simp
      · have hneq : neg x ≠ neg y := by
          intro heq
          rcases lt_or_gt_of_ne hxy with hlt | hlt
          · exact absurd ((hneg y x).mpr hlt) (by rw [heq]; exact lt_irrefl _)
          · exact absurd ((hneg x y).mpr hlt) (by rw [heq]; exact lt_irrefl _)
        simp [hneq, Ne.symm hxy]

theorem append_lt_of_length {l l' : List β} (hlen : l.length = l'.length) (s t : List β) :
    l ++ s < l' ++ t ↔ l < l' ∨ l = l' ∧ s < t := by
  induction l generalizing l' with
  | nil =>
    rw [length_nil] at hlen
    obtain rfl := length_eq_zero_iff.mp hlen.symm
    simp
  | cons x l ih =>
    cases l' with
    | nil => cases hlen
    | cons y l' =>
      rw [length_cons, length_cons, Nat.add_right_cancel_iff] at hlen
      simp only [cons_append, cons_lt_cons_iff, ih hlen, cons.injEq]
      tauto

/-! ### The laws of a code -/

variable {r : α → α → Prop} {r' : α' → α' → Prop} {encode : α → List β} {encode' : α' → List β}
  {decode : List β → Except ε (α × List β)} {decode' : List β → Except ε' (α' × List β)}

section
variable (c : OrderedCode r encode decode)
include c

theorem encode_lt (a b : α) : encode a < encode b ↔ r a b := by
  have h := c.append_lt a b [] []
  rw [append_nil, append_nil] at h
  rw [h, or_iff_left]
  exact fun hlt => lt_irrefl [] hlt.2

theorem append_ne {a b : α} (hne : a ≠ b) (s t : List β) : encode a ++ s ≠ encode b ++ t := by
  intro heq
  have ha := c.decode_append a s
  rw [heq, c.decode_append b t] at ha
  cases ha
  exact hne rfl

theorem pair_lt (c' : OrderedCode r' encode' decode') (a b : α) (x y : α') :
    encode a ++ encode' x < encode b ++ encode' y ↔ r a b ∨ a = b ∧ r' x y := by
  rw [c.append_lt, c'.encode_lt]

theorem complement {neg : β → β}
    (hneg : ∀ x y, neg x < neg y ↔ y < x) (hinv : Function.Involutive neg) :
    OrderedCode (fun a b => r b a) (fun a => (encode a).map neg)
      (fun bs => (decode (bs.map neg)).map fun p => (p.1, p.2.map neg)) where
  append_lt a b s t := by
    by_cases hab : a = b
    · subst hab
      have hirr : ¬ r a a := by
        rw [← c.encode_lt]
        exact lt_irrefl _
      rw [append_lt_of_length rfl]
      simp [hirr]
    · rw [map_append_lt hneg (c.append_ne hab), c.encode_lt]
      simp [hab]
  decode_append a s := by
    have hmap : ((encode a).map neg ++ s).map neg = encode a ++ s.map neg := by
      rw [map_append, map_involutive_iff.mpr hinv]
    rw [hmap, c.decode_append, Except.map, map_involutive_iff.mpr hinv]
  eq_of_decode bs a s h := by
    cases hdec : decode (bs.map neg) with
    | error e =>
      rw [hdec] at h
      cases h
    | ok p =>
      rw [hdec] at h
      cases h
      rw [← map_append, ← c.eq_of_decode _ _ _ hdec, map_involutive_iff.mpr hinv]

end

theorem of_length {n : ℕ} (hlen : ∀ a, (encode a).length = n)
    (hlt : ∀ a b, encode a < encode b ↔ r a b) (hinj : ∀ a b, encode a = encode b → a = b)
    (hdec : ∀ a s, decode (encode a ++ s) = .ok (a, s))
    (heq : ∀ bs a s, decode bs = .ok (a, s) → bs = encode a ++ s) :
    OrderedCode r encode decode where
  append_lt a b s t := by
    rw [append_lt_of_length (by rw [hlen, hlen]), hlt]
    constructor
    · rintro (h | ⟨h, hst⟩)
      · exact .inl h
      · exact .inr ⟨hinj a b h, hst⟩
    · rintro (h | ⟨rfl, hst⟩)
      · exact .inl h
      · exact .inr ⟨rfl, hst⟩
  decode_append := hdec
  eq_of_decode := heq

end OrderedCode
