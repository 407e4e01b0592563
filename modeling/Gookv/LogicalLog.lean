/-
A log as its users see it: a suffix of a sequence, spliced at its end and cut at its beginning.

Of the position just before the log only the term is left.
-/
import Mathlib

structure LogicalLog (α : Type*) where
  truncatedIndex : ℕ
  truncatedTerm : ℕ
  lastIndex : ℕ
  entry : ℕ → Option α

namespace LogicalLog

variable {α : Type*}

def firstIndex (L : LogicalLog α) : ℕ := L.truncatedIndex + 1

def splice (L : LogicalLog α) (first : ℕ) (es : List α) : LogicalLog α :=
  { L with
    lastIndex := first + es.length - 1
    entry := fun i => if i < first then L.entry i else es[i - first]? }

def compact (L : LogicalLog α) (index term : ℕ) : LogicalLog α :=
  { L with truncatedIndex := index, truncatedTerm := term }

def slice (L : LogicalLog α) (lo hi : ℕ) : List α :=
  (List.range' lo (hi - lo)).filterMap L.entry

theorem slice_singleton {L : LogicalLog α} {i : ℕ} {e : α} (he : L.entry i = some e) :
    L.slice i (i + 1) = [e] := by
  rw [slice, Nat.add_sub_cancel_left]
  show List.filterMap L.entry [i] = [e]
  rw [List.filterMap_cons, he]
  rfl

theorem slice_eq_of_map {L : LogicalLog α} {lo hi : ℕ} {es : List α} (index : α → ℕ)
    (hmap : es.map index = List.range' lo (hi - lo))
    (hentry : ∀ e ∈ es, L.entry (index e) = some e) : L.slice lo hi = es := by
  rw [slice, ← hmap, List.filterMap_map]
  calc es.filterMap (L.entry ∘ index) = es.filterMap some := List.filterMap_congr hentry
    _ = es := List.filterMap_some

end LogicalLog

/-- `res` is the longest initial part of `req` within the limit, not empty unless `req` is. -/
structure LongestFit {α : Type*} (size : α → ℕ) (limit : ℕ) (req res : List α) : Prop where
  initial : res <+: req
  nonempty : req ≠ [] → res ≠ []
  fits : (res.map size).sum ≤ limit ∨ res.length = 1
  longest : ∀ p, p <+: req → (p.map size).sum ≤ limit → p.length ≤ res.length
