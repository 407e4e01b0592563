/-
Readers, and records as sequences of tagged fields.

A reader takes a value from the front of the data and returns what follows it.  Readers are
composed: one after another, and one a number of times.
-/
import Mathlib

/-- Takes a value from the front of the data, and returns what follows it. -/
abbrev Reader (β α ε : Type*) := List β → Except ε (α × List β)

namespace Reader

variable {β α α' ε : Type*}

def map (f : α → α') (r : Reader β α ε) : Reader β α' ε := fun data =>
  (r data).map fun p => (f p.1, p.2)

def bind (r : Reader β α ε) (r' : α → Reader β α' ε) : Reader β α' ε := fun data =>
  match r data with
  | .error e => .error e
  | .ok (a, rest) => r' a rest

def times (r : Reader β α ε) : ℕ → Reader β (List α) ε
  | 0 => fun data => .ok ([], data)
  | n + 1 => r.bind fun a => (r.times n).map (a :: ·)

/-- The string is read as the value, whatever follows it. -/
def Reads (r : Reader β α ε) (bs : List β) (a : α) : Prop :=
  ∀ rest, r (bs ++ rest) = .ok (a, rest)

variable {r : Reader β α ε} {bs bs' data rest tail : List β} {a : α}

variable {r' : α → Reader β α' ε} {f : α → α'} {a' : α'} {e : ε}

theorem map_ok : r.map f data = .ok (a', rest) ↔
    ∃ a, r data = .ok (a, rest) ∧ a' = f a := by
  rw [map]
  rcases r data with e | ⟨a, rest'⟩ <;> simp [Except.map]
  grind

theorem map_error : r.map f data = .error e ↔ r data = .error e := by
  rw [map]
  cases r data <;> simp [Except.map]

theorem bind_ok : r.bind r' data = .ok (a', tail) ↔
    ∃ a rest, r data = .ok (a, rest) ∧ r' a rest = .ok (a', tail) := by
  rw [bind]
  rcases r data with e | ⟨a, rest⟩ <;> simp

theorem bind_error : r.bind r' data = .error e ↔
    r data = .error e ∨ ∃ a rest, r data = .ok (a, rest) ∧ r' a rest = .error e := by
  rw [bind]
  rcases r data with e | ⟨a, rest⟩ <;> simp

theorem Reads.map (h : r.Reads bs a) (f : α → α') : (r.map f).Reads bs (f a) := by
  intro rest
  rw [Reader.map, h rest]
  rfl

theorem Reads.bind (h : r.Reads bs a)
    (h' : (r' a).Reads bs' a') : (r.bind r').Reads (bs ++ bs') a' := by
  intro rest
  rw [Reader.bind, List.append_assoc, h (bs' ++ rest)]
  exact h' rest

theorem reads_times {as : List α} {enc : α → List β} (h : ∀ a ∈ as, r.Reads (enc a) a) :
    (r.times as.length).Reads (as.flatMap enc) as := by
  induction as with
  | nil => exact fun rest => rfl
  | cons a as ih =>
    have has := ih fun b hb => h b (List.mem_cons_of_mem a hb)
    exact (h a (by simp)).bind (has.map (a :: ·))

/-! ### What is left -/

/-- What follows the value is no longer than the data. -/
def Shrinks (r : Reader β α ε) : Prop :=
  ∀ data a rest, r data = .ok (a, rest) → rest.length ≤ data.length

theorem Shrinks.map (h : r.Shrinks) (f : α → α') : (r.map f).Shrinks := by
  intro data a' rest hdata
  obtain ⟨a, hr, -⟩ := map_ok.mp hdata
  exact h data a rest hr

theorem Shrinks.bind (h : r.Shrinks) (h' : ∀ a, (r' a).Shrinks) :
    (r.bind r').Shrinks := by
  intro data a' tail hdata
  obtain ⟨a, rest, hr, hr'⟩ := bind_ok.mp hdata
  exact (h' a rest a' tail hr').trans (h data a rest hr)

theorem Shrinks.ite {p : Prop} [Decidable p] {r' : Reader β α ε} (h : r.Shrinks)
    (h' : r'.Shrinks) : Shrinks (if p then r else r') := by
  split
  · exact h
  · exact h'

theorem Shrinks.times (h : r.Shrinks) (n : ℕ) : (r.times n).Shrinks := by
  induction n with
  | zero =>
    intro data as rest hdata
    cases hdata
    exact le_rfl
  | succ n ih => exact h.bind fun a => ih.map (a :: ·)

end Reader

/-- Reads the payload behind a tag; what is left is no longer than the data. -/
structure FieldReader (β φ ε : Type*) where
  read : β → Reader β φ ε
  shrinks : ∀ tag, (read tag).Shrinks

namespace FieldReader

variable {β φ ε : Type*} {R : FieldReader β φ ε}

/-- Reads fields until no data are left. -/
def readAll (R : FieldReader β φ ε) : List β → Except ε (List φ)
  | [] => .ok []
  | tag :: data =>
    match _h : R.read tag data with
    | .error e => .error e
    | .ok (f, rest) => (R.readAll rest).map (f :: ·)
termination_by data => data.length
decreasing_by exact Nat.lt_succ_of_le (R.shrinks tag data f rest _h)

theorem readAll_cons {tag : β} {data rest : List β} {f : φ} (h : R.read tag data = .ok (f, rest)) :
    R.readAll (tag :: data) = (R.readAll rest).map (f :: ·) := by
  rw [readAll]
  split
  · rename_i e he
    rw [h] at he
    cases he
  · rename_i f' rest' hok
    rw [h] at hok
    cases hok
    rfl

theorem readAll_flatMap (tag : φ → β) (payload : φ → List β) {fs : List φ}
    (h : ∀ f ∈ fs, (R.read (tag f)).Reads (payload f) f) :
    R.readAll (fs.flatMap fun f => tag f :: payload f) = .ok fs := by
  induction fs with
  | nil => rw [List.flatMap_nil, readAll]
  | cons f fs ih =>
    rw [List.flatMap_cons, List.cons_append, readAll_cons (h f (by simp) _),
      ih fun g hg => h g (List.mem_cons_of_mem f hg)]
    rfl

end FieldReader
