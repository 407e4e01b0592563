/-
The last write to a location, and what is left of it when logs are interleaved.

An operation writes a value to a location (`f a = some v`) or leaves it alone (`f a = none`).
-/
import Mathlib

variable {α β : Type*}

/-- The value of the last operation of a log that writes. -/
def LastWrite (f : α → Option β) : List α → Option β
  | [] => none
  | a :: l => (LastWrite f l).or (f a)

namespace LastWrite

open List Option

open LastWrite

variable {f : α → Option β} {x : β} {l : List α} {v : β}

@[simp] theorem nil : LastWrite f [] = none := rfl

theorem cons (a : α) (l : List α) : LastWrite f (a :: l) = (LastWrite f l).or (f a) := rfl

theorem append (l m : List α) : LastWrite f (l ++ m) = (LastWrite f m).or (LastWrite f l) := by
  induction l with
  | nil => simp
  | cons a l ih => rw [List.cons_append, cons, cons, ih, Option.or_assoc]

theorem of_suffix {m : List α} (h : l <:+ m) (hv : LastWrite f l = some v) :
    LastWrite f m = some v := by
  obtain ⟨t, rfl⟩ := h
  rw [append, hv, some_or]

theorem flatMap {γ : Type*} (g : γ → List α) (l : List γ) :
    LastWrite f (l.flatMap g) = LastWrite (fun c => LastWrite f (g c)) l := by
  induction l with
  | nil => rfl
  | cons c l ih => rw [flatMap_cons, append, ih, cons]

theorem map {γ : Type*} (g : γ → α) (l : List γ) :
    LastWrite f (l.map g) = LastWrite (fun c => f (g c)) l := by
  induction l with
  | nil => rfl
  | cons c l ih => rw [map_cons, cons, cons, ih]

theorem comp {γ : Type*} (g : β → γ) (l : List α) :
    LastWrite (fun a => (f a).map g) l = (LastWrite f l).map g := by
  induction l with
  | nil => rfl
  | cons a l ih =>
    rw [cons, cons, ih]
    cases LastWrite f l <;> rfl

theorem toList (o : Option α) : LastWrite f o.toList = o.bind f := by
  cases o with
  | none => rfl
  | some a => exact none_or

theorem foldl_getD (l : List α) (x : β) :
    l.foldl (fun b a => (f a).getD b) x = (LastWrite f l).getD x := by
  induction l generalizing x with
  | nil => rfl
  | cons a l ih =>
    rw [foldl_cons, ih, cons]
    cases LastWrite f l <;> rfl

theorem eq_none_iff : LastWrite f l = none ↔ ∀ a ∈ l, f a = none := by
  induction l with
  | nil => simp
  | cons a l ih => rw [cons, or_eq_none_iff, ih, forall_mem_cons, and_comm]

theorem exists_of_eq_some (h : LastWrite f l = some v) :
    ∃ a ∈ l, f a = some v := by
  induction l with
  | nil => cases h
  | cons a l ih =>
    rw [cons, or_eq_some_iff] at h
    rcases h with h | ⟨-, h⟩
    · obtain ⟨b, hb, hv⟩ := ih h
      exact ⟨b, mem_cons_of_mem a hb, hv⟩
    · exact ⟨a, mem_cons_self, h⟩

theorem congr {g : α → Option β} (h : ∀ a ∈ l, f a = g a) :
    LastWrite f l = LastWrite g l := by
  induction l with
  | nil => rfl
  | cons a l ih =>
    rw [cons, cons, ih fun b hb => h b (mem_cons_of_mem _ hb), h a (by simp)]

theorem eq_some_iff_of_const (h : ∀ a ∈ l, ∀ y, f a = some y → y = x) :
    LastWrite f l = some v ↔ v = x ∧ ∃ a ∈ l, f a = some x := by
  constructor
  · intro hv
    obtain ⟨a, ha, hav⟩ := exists_of_eq_some hv
    obtain rfl := h a ha v hav
    exact ⟨rfl, a, ha, hav⟩
  · rintro ⟨rfl, a, ha, hav⟩
    cases hl : LastWrite f l with
    | none => exact absurd hav (by rw [eq_none_iff.mp hl a ha]; simp)
    | some y =>
      obtain ⟨b, hb, hby⟩ := exists_of_eq_some hl
      rw [h b hb y hby]

theorem ite (p : α → Prop) [DecidablePred p] (g : α → β) (l : List α) :
    LastWrite (fun a => if p a then some (g a) else none) l = (l.filter p).getLast?.map g := by
  induction l using reverseRecOn with
  | nil => rfl
  | append_singleton l a ih =>
    rw [append, ih, filter_append, getLast?_append]
    by_cases ha : p a <;> simp [cons, ha]

end LastWrite

/-! ### Merging logs -/

/-- `Merge l m w`: the log `w` consists of `l` and `m`, each in its own order. -/
inductive Merge : List α → List α → List α → Prop
  | nil : Merge [] [] []
  | left {a : α} {l m w : List α} : Merge l m w → Merge (a :: l) m (a :: w)
  | right {a : α} {l m w : List α} : Merge l m w → Merge l (a :: m) (a :: w)

/-- `Interleaves ls w`: the log `w` consists of the logs `ls`, each in its own order. -/
inductive Interleaves : List (List α) → List α → Prop
  | nil : Interleaves [] []
  | cons {l m w : List α} {ls : List (List α)} : Merge l m w → Interleaves ls m →
      Interleaves (l :: ls) w

namespace Merge

theorem nil_left (m : List α) : Merge [] m m := by
  induction m with
  | nil => exact .nil
  | cons a m ih => exact ih.right

theorem nil_right (l : List α) : Merge l [] l := by
  induction l with
  | nil => exact .nil
  | cons a l ih => exact ih.left

theorem append (l m : List α) : Merge l m (l ++ m) := by
  induction l with
  | nil => exact nil_left m
  | cons a l ih => exact ih.left

theorem append_swap (l m : List α) : Merge l m (m ++ l) := by
  induction m with
  | nil => exact nil_right l
  | cons a m ih => exact ih.right

variable {f : α → Option β} {l m w : List α} {v : β}

theorem sublist_left (h : Merge l m w) : l.Sublist w := by
  induction h with
  | nil => exact .slnil
  | left _ ih => exact ih.cons_cons _
  | right _ ih => exact ih.cons _

theorem sublist_right (h : Merge l m w) : m.Sublist w := by
  induction h with
  | nil => exact .slnil
  | left _ ih => exact ih.cons _
  | right _ ih => exact ih.cons_cons _

theorem lastWrite (h : Merge l m w)
    (hv : LastWrite f w = some v) : LastWrite f l = some v ∨ LastWrite f m = some v := by
  induction h with
  | nil => cases hv
  | left hlm ih =>
    rw [LastWrite.cons, Option.or_eq_some_iff] at hv
    rcases hv with hv | ⟨hnone, hv⟩
    · exact (ih hv).imp_left fun hl => by rw [LastWrite.cons, hl, Option.some_or]
    · -- Nothing after the head writes, in particular nothing of the left log.
      have hl := LastWrite.eq_none_iff.mpr fun b hb =>
        LastWrite.eq_none_iff.mp hnone b (hlm.sublist_left.subset hb)
      exact .inl (by rw [LastWrite.cons, hl, Option.none_or, hv])
  | right hlm ih =>
    rw [LastWrite.cons, Option.or_eq_some_iff] at hv
    rcases hv with hv | ⟨hnone, hv⟩
    · exact (ih hv).imp_right fun hm => by rw [LastWrite.cons, hm, Option.some_or]
    · have hm := LastWrite.eq_none_iff.mpr fun b hb =>
        LastWrite.eq_none_iff.mp hnone b (hlm.sublist_right.subset hb)
      exact .inr (by rw [LastWrite.cons, hm, Option.none_or, hv])

end Merge

namespace Interleaves

variable {f : α → Option β} {ls : List (List α)} {l w : List α} {x v : β}

theorem lastWrite (h : Interleaves ls w) (hv : LastWrite f w = some v) :
    ∃ l ∈ ls, LastWrite f l = some v := by
  induction h with
  | nil => cases hv
  | cons hmerge _ ih =>
    rcases hmerge.lastWrite hv with hl | hm
    · exact ⟨_, List.mem_cons_self, hl⟩
    · obtain ⟨l, hl, hlast⟩ := ih hm
      exact ⟨l, List.mem_cons_of_mem _ hl, hlast⟩

theorem flatten (ls : List (List α)) : Interleaves ls ls.flatten := by
  induction ls with
  | nil => exact .nil
  | cons l ls ih => exact .cons (Merge.append l ls.flatten) ih

theorem exists_append (hl : l ∈ ls) : ∃ w, Interleaves ls (w ++ l) := by
  induction ls with
  | nil => cases hl
  | cons m ls ih =>
    rcases List.mem_cons.mp hl with rfl | hl
    · exact ⟨ls.flatten, .cons (Merge.append_swap l ls.flatten) (flatten ls)⟩
    · obtain ⟨w, hw⟩ := ih hl
      refine ⟨m ++ w, .cons ?_ hw⟩
      rw [List.append_assoc]
      exact Merge.append m (w ++ l)

theorem forall_getD_iff : (∀ w, Interleaves ls w → (LastWrite f w).getD x = x) ↔
      ∀ l ∈ ls, ∀ v, LastWrite f l = some v → v = x := by
  constructor
  · intro h l hl v hv
    obtain ⟨w, hw⟩ := exists_append hl
    have hlast := h (w ++ l) hw
    rwa [LastWrite.append, hv, Option.some_or, Option.getD_some] at hlast
  · intro h w hw
    cases hlast : LastWrite f w with
    | none => rfl
    | some v =>
      obtain ⟨l, hl, hv⟩ := hw.lastWrite hlast
      exact h l hl v hv

end Interleaves
