/-
Numbers of variable length: seven bits a byte, the lowest first.

Every byte but the last has its highest bit set.  A number takes at most `n + 1` bytes, and
the last one of so many is bounded by `top`, so that what is read is below
`(top + 1) * 128 ^ n`.
-/
import Mathlib

namespace Varint

def encode : ℕ → ℕ → List UInt8
  | 0, v => [UInt8.ofNat v]
  | n + 1, v =>
    if v < 128 then [UInt8.ofNat v] else UInt8.ofNat (v % 128 + 128) :: encode n (v / 128)

/-- Reads a number of at most `n + 1` bytes; none when it is cut off or too large. -/
def decode (top : ℕ) : ℕ → List UInt8 → Option (ℕ × List UInt8)
  | _, [] => none
  | 0, b :: rest => if b.toNat ≤ top then some (b.toNat, rest) else none
  | n + 1, b :: rest =>
    if b.toNat < 128 then some (b.toNat, rest)
    else (decode top n rest).map fun p => (b.toNat % 128 + 128 * p.1, p.2)

variable {top n v : ℕ}

theorem decode_encode (htop : top < 128) (h : v < (top + 1) * 128 ^ n) (rest : List UInt8) :
    decode top n (encode n v ++ rest) = some (v, rest) := by
  induction n generalizing v with
  | zero =>
    rw [pow_zero, mul_one] at h
    have hb : (UInt8.ofNat v).toNat = v := UInt8.toNat_ofNat_of_lt' (by show v < 256; omega)
    show decode top 0 (UInt8.ofNat v :: rest) = some (v, rest)
    rw [decode, hb, if_pos (by omega)]
  | succ n ih =>
    rw [encode]
    by_cases hv : v < 128
    · have hb : (UInt8.ofNat v).toNat = v := UInt8.toNat_ofNat_of_lt' (by show v < 256; omega)
      rw [if_pos hv]
      show decode top (n + 1) (UInt8.ofNat v :: rest) = some (v, rest)
      rw [decode, hb, if_pos hv]
    · have hb : (UInt8.ofNat (v % 128 + 128)).toNat = v % 128 + 128 :=
        UInt8.toNat_ofNat_of_lt' (by show v % 128 + 128 < 256; omega)
      have hlow : (v % 128 + 128) % 128 + 128 * (v / 128) = v := by omega
      have hhigh : v / 128 < (top + 1) * 128 ^ n := by
        rw [Nat.div_lt_iff_lt_mul (by omega), mul_assoc, ← pow_succ]
        exact h
      rw [if_neg hv, List.cons_append, decode, hb, if_neg (by omega), ih hhigh]
      simp only [Option.map_some, hlow]

theorem decode_length {data rest : List UInt8} (h : decode top n data = some (v, rest)) :
    rest.length < data.length := by
  induction n generalizing data v with
  | zero =>
    cases data with
    | nil => cases h
    | cons b data =>
      rw [decode] at h
      obtain ⟨-, h⟩ := Option.ite_none_right_eq_some.mp h
      cases h
      exact Nat.lt_succ_self _
  | succ n ih =>
    cases data with
    | nil => cases h
    | cons b data =>
      rw [decode] at h
      split at h
      · cases h
        exact Nat.lt_succ_self _
      · obtain ⟨p, hp, heq⟩ := Option.map_eq_some_iff.mp h
        cases heq
        exact (ih hp).trans (Nat.lt_succ_self _)

end Varint
