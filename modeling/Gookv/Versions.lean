/-
Version chains: the records of one key, newest first.

The timestamps of a chain strictly decrease, so that one out of order cannot be built.
`newest_eq_some_iff` has what a search for a kind of record finds.
-/
import Mathlib

/-- A chain of records with strictly decreasing timestamps. -/
structure Versions (τ α : Type*) [LinearOrder τ] where
  entries : List (τ × α)
  sorted : entries.Pairwise fun a b => b.1 < a.1

namespace Versions

open List

variable {τ α : Type*} [LinearOrder τ]

def empty : Versions τ α := ⟨[], List.Pairwise.nil⟩

instance : Inhabited (Versions τ α) := ⟨empty⟩

@[simp] theorem entries_empty : (empty : Versions τ α).entries = [] := rfl

/-- Insert a record into a descending list, replacing one with its timestamp. -/
def insertDesc (t : τ) (a : α) : List (τ × α) → List (τ × α)
  | [] => [(t, a)]
  | p :: l => if p.1 < t then (t, a) :: p :: l
      else if p.1 = t then (t, a) :: l
      else p :: insertDesc t a l

variable {l : List (τ × α)} {v : Versions τ α} {a : α} {t : τ} {q : τ × α} {p : τ × α → Bool}

theorem mem_insertDesc (hl : l.Pairwise fun a b => b.1 < a.1) :
    q ∈ insertDesc t a l ↔ q = (t, a) ∨ q.1 ≠ t ∧ q ∈ l := by
  induction l with
  | nil => simp [insertDesc]
  | cons p l ih =>
    obtain ⟨hp, hl'⟩ := pairwise_cons.mp hl
    rw [insertDesc]
    by_cases h1 : p.1 < t
    · -- everything in the list is below `t`, so nothing is replaced
      have hne : ∀ r ∈ p :: l, r.1 ≠ t := by
        intro r hr
        rcases mem_cons.mp hr with rfl | hr
        · exact h1.ne
        · exact ((hp r hr).trans h1).ne
      rw [if_pos h1, mem_cons]
      constructor
      · rintro (h | h)
        · exact .inl h
        · exact .inr ⟨hne q h, h⟩
      · rintro (h | h)
        · exact .inl h
        · exact .inr h.2
    · rw [if_neg h1]
      by_cases h2 : p.1 = t
      · have hne : ∀ r ∈ l, r.1 ≠ t := fun r hr => h2 ▸ (hp r hr).ne
        rw [if_pos h2, mem_cons, mem_cons]
        constructor
        · rintro (h | h)
          · exact .inl h
          · exact .inr ⟨hne q h, .inr h⟩
        · rintro (h | ⟨h, rfl | h'⟩)
          · exact .inl h
          · exact absurd h2 h
          · exact .inr h'
      · rw [if_neg h2, mem_cons, mem_cons, ih hl']
        constructor
        · rintro (rfl | h | ⟨h, h'⟩)
          · exact .inr ⟨h2, .inl rfl⟩
          · exact .inl h
          · exact .inr ⟨h, .inr h'⟩
        · rintro (h | ⟨h, rfl | h'⟩)
          · exact .inr (.inl h)
          · exact .inl rfl
          · exact .inr (.inr ⟨h, h'⟩)

theorem pairwise_insertDesc (hl : l.Pairwise fun a b => b.1 < a.1) :
    (insertDesc t a l).Pairwise fun a b => b.1 < a.1 := by
  induction l with
  | nil => simp [insertDesc]
  | cons p l ih =>
    obtain ⟨hp, hl'⟩ := pairwise_cons.mp hl
    rw [insertDesc]
    by_cases h1 : p.1 < t
    · rw [if_pos h1]
      refine pairwise_cons.mpr ⟨fun r hr => ?_, hl⟩
      rcases mem_cons.mp hr with rfl | hr
      · exact h1
      · exact (hp r hr).trans h1
    · rw [if_neg h1]
      by_cases h2 : p.1 = t
      · rw [if_pos h2]
        exact pairwise_cons.mpr ⟨fun r hr => h2 ▸ hp r hr, hl'⟩
      · rw [if_neg h2]
        refine pairwise_cons.mpr ⟨fun r hr => ?_, ih hl'⟩
        rcases (mem_insertDesc hl').mp hr with rfl | ⟨_, hr⟩
        · exact lt_of_le_of_ne (not_lt.mp h1) (Ne.symm h2)
        · exact hp r hr

/-- Write a record at a timestamp, replacing the one that is there. -/
def put (v : Versions τ α) (t : τ) (a : α) : Versions τ α :=
  ⟨insertDesc t a v.entries, pairwise_insertDesc v.sorted⟩

def erase (v : Versions τ α) (t : τ) : Versions τ α :=
  ⟨v.entries.filter fun p => p.1 ≠ t, v.sorted.filter _⟩

@[simp] theorem mem_put : q ∈ (v.put t a).entries ↔ q = (t, a) ∨ q.1 ≠ t ∧ q ∈ v.entries :=
  mem_insertDesc v.sorted

@[simp] theorem mem_erase : q ∈ (v.erase t).entries ↔ q ∈ v.entries ∧ q.1 ≠ t := by
  simp [erase]

theorem eq_of_mem {b : α} (ha : (t, a) ∈ v.entries) (hb : (t, b) ∈ v.entries) : a = b := by
  have key : ∀ l : List (τ × α), (l.Pairwise fun a b => b.1 < a.1) →
      (t, a) ∈ l → (t, b) ∈ l → a = b := by
    intro l
    induction l with
    | nil => intro _ h; cases h
    | cons p l ih =>
      intro hl ha hb
      obtain ⟨hp, hl'⟩ := pairwise_cons.mp hl
      rcases mem_cons.mp ha with ha' | ha'
      · subst ha'
        rcases mem_cons.mp hb with hb' | hb'
        · exact (Prod.mk.inj hb').2.symm
        · exact absurd (hp _ hb') (lt_irrefl _)
      · rcases mem_cons.mp hb with hb' | hb'
        · subst hb'
          exact absurd (hp _ ha') (lt_irrefl _)
        · exact ih hl' ha' hb'
  exact key v.entries v.sorted ha hb

/-- The record at a timestamp. -/
def get (v : Versions τ α) (t : τ) : Option α :=
  (v.entries.find? fun p => p.1 = t).map Prod.snd

theorem get_eq_some_iff : v.get t = some a ↔ (t, a) ∈ v.entries := by
  rw [get, Option.map_eq_some_iff]
  constructor
  · rintro ⟨q, hq, rfl⟩
    have hqt : q.1 = t := by simpa using find?_some hq
    exact hqt ▸ mem_of_find?_eq_some hq
  · intro h
    cases hf : v.entries.find? fun p => p.1 = t with
    | none => exact absurd (find?_eq_none.mp hf _ h) (by simp)
    | some q =>
      have hqt : q.1 = t := by simpa using find?_some hf
      exact ⟨q, rfl, eq_of_mem (hqt ▸ mem_of_find?_eq_some hf) h⟩

theorem get_put (v : Versions τ α) (t t' : τ) (a : α) :
    (v.put t a).get t' = if t' = t then some a else v.get t' := by
  ext b
  rw [get_eq_some_iff, mem_put]
  by_cases h : t' = t
  · simp [h, eq_comm]
  · simp [h, get_eq_some_iff]

theorem get_erase (v : Versions τ α) (t t' : τ) :
    (v.erase t).get t' = if t' = t then none else v.get t' := by
  ext b
  rw [get_eq_some_iff, mem_erase]
  by_cases h : t' = t
  · simp [h]
  · simp [h, get_eq_some_iff]

/-- The records at or below a timestamp, in the order of the iteration. -/
def upTo (v : Versions τ α) (t : τ) : List (τ × α) :=
  v.entries.dropWhile fun p => t < p.1

theorem mem_upTo : q ∈ v.upTo t ↔ q ∈ v.entries ∧ q.1 ≤ t := by
  have key : ∀ l : List (τ × α), (l.Pairwise fun a b => b.1 < a.1) →
      (q ∈ l.dropWhile (fun p => t < p.1) ↔ q ∈ l ∧ q.1 ≤ t) := by
    intro l
    induction l with
    | nil => simp
    | cons p l ih =>
      intro hl
      obtain ⟨hp, hl'⟩ := pairwise_cons.mp hl
      by_cases h : t < p.1
      · rw [dropWhile_cons_of_pos (by simpa using h), ih hl', mem_cons]
        constructor
        · exact fun ⟨h1, h2⟩ => ⟨.inr h1, h2⟩
        · rintro ⟨rfl | h1, h2⟩
          · exact absurd h2 (not_le.mpr h)
          · exact ⟨h1, h2⟩
      · rw [dropWhile_cons_of_neg (by simpa using h), mem_cons]
        have hle : p.1 ≤ t := not_lt.mp h
        constructor
        · rintro (rfl | h1)
          · exact ⟨.inl rfl, hle⟩
          · exact ⟨.inr h1, (hp q h1).le.trans hle⟩
        · exact fun ⟨h1, _⟩ => h1
  exact key v.entries v.sorted

theorem upTo_suffix (v : Versions τ α) (t : τ) : v.upTo t <:+ v.entries :=
  dropWhile_suffix _

theorem upTo_sorted (v : Versions τ α) (t : τ) : (v.upTo t).Pairwise fun a b => b.1 < a.1 :=
  v.sorted.sublist (dropWhile_sublist _)

theorem upTo_eq_entries (h : ∀ q : τ × α, q.1 ≤ t) : v.upTo t = v.entries := by
  rw [upTo, dropWhile_eq_self_iff]
  intro hl
  simpa using h _

theorem upTo_of_cons {t' : τ} {p : τ × α}
    (h : v.upTo t = p :: l) (ht' : ∀ a, a ≤ t' ↔ a < p.1) : v.upTo t' = l := by
  have key : ∀ es : List (τ × α), (es.Pairwise fun a b => b.1 < a.1) →
      es.dropWhile (fun q => t < q.1) = p :: l →
      es.dropWhile (fun q => t' < q.1) = l := by
    intro es
    induction es with
    | nil => simp
    | cons a es ih =>
      intro hs hd
      obtain ⟨ha, hs'⟩ := pairwise_cons.mp hs
      by_cases hta : t < a.1
      · rw [dropWhile_cons_of_pos (by simpa using hta)] at hd
        have hp : p ∈ es := (dropWhile_sublist _).subset (hd ▸ mem_cons_self)
        have hpa : t' < a.1 := not_le.mp fun hle => absurd ((ht' _).mp hle) (ha p hp).not_gt
        rw [dropWhile_cons_of_pos (by simpa using hpa)]
        exact ih hs' hd
      · rw [dropWhile_cons_of_neg (by simpa using hta)] at hd
        obtain ⟨rfl, rfl⟩ := cons_eq_cons.mp hd
        have hpa : t' < a.1 := not_le.mp fun hle => lt_irrefl _ ((ht' _).mp hle)
        rw [dropWhile_cons_of_pos (by simpa using hpa), dropWhile_eq_self_iff]
        intro hl
        have hlt := ha _ (getElem_mem hl)
        simpa using (ht' _).mpr hlt
  exact key v.entries v.sorted h

/-- The newest record at or below a timestamp that meets a condition. -/
def newest (v : Versions τ α) (p : τ × α → Bool) (t : τ) : Option (τ × α) :=
  (v.upTo t).find? p

theorem newest_eq_some_iff : v.newest p t = some q ↔
      (q ∈ v.entries ∧ q.1 ≤ t ∧ p q) ∧ ∀ r ∈ v.entries, r.1 ≤ t → p r → r.1 ≤ q.1 := by
  have key : ∀ l : List (τ × α), (l.Pairwise fun a b => b.1 < a.1) →
      (l.find? p = some q ↔ (q ∈ l ∧ p q) ∧ ∀ r ∈ l, p r → r.1 ≤ q.1) := by
    intro l
    induction l with
    | nil => simp
    | cons a l ih =>
      intro hl
      obtain ⟨ha, hl'⟩ := pairwise_cons.mp hl
      by_cases hp : p a
      · rw [find?_cons_of_pos hp, Option.some_inj]
        constructor
        · rintro rfl
          refine ⟨⟨by simp, hp⟩, fun r hr _ => ?_⟩
          rcases mem_cons.mp hr with rfl | h
          · exact le_rfl
          · exact (ha r h).le
        · rintro ⟨⟨hq, _⟩, hmax⟩
          rcases mem_cons.mp hq with h | h
          · exact h.symm
          · exact absurd (hmax a (by simp) hp) (not_le.mpr (ha q h))
      · rw [find?_cons_of_neg hp, ih hl']
        constructor
        · rintro ⟨⟨hq, hpq⟩, hmax⟩
          refine ⟨⟨mem_cons_of_mem _ hq, hpq⟩, fun r hr hpr => ?_⟩
          rcases mem_cons.mp hr with rfl | h
          · exact absurd hpr hp
          · exact hmax r h hpr
        · rintro ⟨⟨hq, hpq⟩, hmax⟩
          rcases mem_cons.mp hq with rfl | h
          · exact absurd hpq hp
          · exact ⟨⟨h, hpq⟩, fun r hr hpr => hmax r (mem_cons_of_mem _ hr) hpr⟩
  rw [newest, key _ (v.upTo_sorted t)]
  simp only [mem_upTo]
  constructor
  · rintro ⟨⟨⟨h1, h2⟩, h3⟩, h4⟩
    exact ⟨⟨h1, h2, h3⟩, fun r hr hrt => h4 r ⟨hr, hrt⟩⟩
  · rintro ⟨⟨h1, h2, h3⟩, h4⟩
    exact ⟨⟨⟨h1, h2⟩, h3⟩, fun r hr => h4 r hr.1 hr.2⟩

theorem newest_eq_none_iff : v.newest p t = none ↔ ∀ r ∈ v.entries, r.1 ≤ t → p r = false := by
  simp only [newest, find?_eq_none, mem_upTo, and_imp, Bool.not_eq_true]

theorem newest_congr {v' : Versions τ α}
    (h : ∀ q, q.1 ≤ t → p q → (q ∈ v.entries ↔ q ∈ v'.entries)) : v.newest p t = v'.newest p t := by
  cases hv : v.newest p t with
  | none =>
    refine (newest_eq_none_iff.mpr fun r hr hrt => ?_).symm
    by_contra hp
    have hp' : p r = true := by simpa using hp
    have hno := newest_eq_none_iff.mp hv r ((h r hrt hp').mpr hr) hrt
    rw [hp'] at hno
    cases hno
  | some q =>
    obtain ⟨⟨h1, h2, h3⟩, h4⟩ := newest_eq_some_iff.mp hv
    refine (newest_eq_some_iff.mpr ⟨⟨(h q h2 h3).mp h1, h2, h3⟩, ?_⟩).symm
    intro r hr hrt hpr
    exact h4 r ((h r hrt hpr).mpr hr) hrt hpr

/-- The newest record at or below a timestamp: where a seek lands. -/
def seek (v : Versions τ α) (t : τ) : Option (τ × α) := (v.upTo t).head?

end Versions
