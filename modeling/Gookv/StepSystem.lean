/-
Systems that move from state to state, and what their runs preserve.
-/
import Mathlib

structure StepSystem (σ α : Type*) where
  start : σ
  step : σ → α → Option σ

namespace StepSystem

theorem of_guard {α : Type*} {p : Prop} [Decidable p] {a b : α}
    (h : (if p then some a else none) = some b) : p ∧ a = b :=
  (Option.ite_none_right_eq_some.mp h).imp_right Option.some.inj

variable {σ α : Type*} {S : StepSystem σ α} {C : σ → α → Prop} {P : σ → Prop}

def runWhen (S : StepSystem σ α) (C : σ → α → Prop) [∀ s a, Decidable (C s a)] :
    σ → List α → Option σ
  | s, [] => some s
  | s, a :: as => if C s a then (S.step s a).bind fun s' => S.runWhen C s' as else none

def runFrom (S : StepSystem σ α) : σ → List α → Option σ := S.runWhen fun _ _ => True

inductive ReachableWhen (S : StepSystem σ α) (C : σ → α → Prop) : σ → Prop
  | start : ReachableWhen S C S.start
  | step {s s' : σ} {a : α} : ReachableWhen S C s → C s a → S.step s a = some s' →
      ReachableWhen S C s'

def Reachable (S : StepSystem σ α) : σ → Prop := S.ReachableWhen fun _ _ => True

variable {as : List α} {s : σ} {s' : σ}

theorem ReachableWhen.invariant (h0 : P S.start)
    (hstep : ∀ s s' a, P s → C s a → S.step s a = some s' → P s')
    (h : S.ReachableWhen C s) : P s := by
  induction h with
  | start => exact h0
  | step _ hC hs ih => exact hstep _ _ _ ih hC hs

variable {I : σ → Prop} {D : σ → α → Prop}

theorem ReachableWhen.mono (hCD : ∀ s a, C s a → D s a)
    (h : S.ReachableWhen C s) : S.ReachableWhen D s := by
  induction h with
  | start => exact .start
  | step _ hC hs ih => exact .step ih (hCD _ _ hC) hs

theorem run_invariant [∀ s a, Decidable (C s a)]
    (hstep : ∀ s s' a, P s → C s a → S.step s a = some s' → P s')
    (hs : P s) (h : S.runWhen C s as = some s') : P s' := by
  induction as generalizing s with
  | nil =>
    rw [runWhen, Option.some_inj] at h
    exact h ▸ hs
  | cons a as ih =>
    rw [runWhen] at h
    split at h
    · rename_i hC
      obtain ⟨s₁, h₁, h₂⟩ := Option.bind_eq_some_iff.mp h
      exact ih (hstep s s₁ a hs hC h₁) h₂
    · exact absurd h (by simp)

theorem reachableWhen_of_run [∀ s a, Decidable (C s a)]
    (hs : S.ReachableWhen C s) (h : S.runWhen C s as = some s') : S.ReachableWhen C s' :=
  run_invariant (fun _ _ _ hs hC h => .step hs hC h) hs h

theorem reachable_of_run (hs : S.Reachable s) (h : S.runFrom s as = some s') : S.Reachable s' :=
  reachableWhen_of_run hs h

/-! ### Exact conditions -/

def AlwaysAfter (S : StepSystem σ α) (P : σ → Prop) : σ → List α → Prop
  | _, [] => True
  | s, a :: as => ∀ s', S.step s a = some s' → P s' ∧ S.AlwaysAfter P s' as

def Meets (S : StepSystem σ α) (C : σ → α → Prop) : σ → List α → Prop
  | _, [] => True
  | s, a :: as => ∀ s', S.step s a = some s' → C s a ∧ S.Meets C s' as

theorem Meets.cons {s₁ : σ} {a : α} (h : S.step s a = some s₁) (hC : C s a)
    (hrest : S.Meets C s₁ as) : S.Meets C s (a :: as) := by
  intro s' hs'
  obtain rfl := Option.some.inj (h.symm.trans hs')
  exact ⟨hC, hrest⟩

theorem meets_congr {I : σ → Prop} {D : σ → α → Prop}
    (hstep : ∀ s s', ∀ a ∈ as, I s → S.step s a = some s' → I s')
    (hiff : ∀ s, ∀ a ∈ as, I s → (C s a ↔ D s a)) (hs : I s) :
    S.Meets C s as ↔ S.Meets D s as := by
  induction as generalizing s with
  | nil => exact Iff.rfl
  | cons a as ih =>
    refine forall₂_congr fun s' h => and_congr (hiff s a List.mem_cons_self hs) (ih ?_ ?_ ?_)
    · exact fun s s' b hb => hstep s s' b (List.mem_cons_of_mem a hb)
    · exact fun s b hb => hiff s b (List.mem_cons_of_mem a hb)
    · exact hstep s s' a List.mem_cons_self hs h

theorem Meets.invariant (hstep : ∀ s s' a, P s → C s a → S.step s a = some s' → P s')
    (hC : S.Meets C s as) (hs : P s) (h : S.runFrom s as = some s') : P s' := by
  induction as generalizing s with
  | nil =>
    rw [runFrom, runWhen, Option.some_inj] at h
    exact h ▸ hs
  | cons a as ih =>
    rw [runFrom, runWhen, if_pos trivial] at h
    obtain ⟨s₁, h₁, h₂⟩ := Option.bind_eq_some_iff.mp h
    obtain ⟨hCa, hrest⟩ := hC s₁ h₁
    exact ih hrest (hstep s s₁ a hs hCa h₁) h₂

theorem meets_of_run (hkeep : ∀ s s' a, ¬ P s → S.step s a = some s' → ¬ P s')
    (hbad : ∀ s s' a, ¬ C s a → S.step s a = some s' → ¬ P s')
    (h : S.runFrom s as = some s') (hs' : P s') : S.Meets C s as := by
  induction as generalizing s with
  | nil => trivial
  | cons a as ih =>
    rw [runFrom, runWhen, if_pos trivial] at h
    obtain ⟨s₁, h₁, h₂⟩ := Option.bind_eq_some_iff.mp h
    have hP₁ : P s₁ := by
      by_contra hnot
      exact run_invariant (P := fun s => ¬ P s) (fun s s' a hs _ hstep => hkeep s s' a hs hstep)
        hnot h₂ hs'
    intro s₂ hstep
    obtain rfl := Option.some.inj (h₁.symm.trans hstep)
    refine ⟨?_, ih h₂⟩
    by_contra hC
    exact hbad s s₁ a hC h₁ hP₁

theorem alwaysAfter_of_meets (hgood : ∀ s s' a, I s → C s a → S.step s a = some s' → I s' ∧ P s')
    (hs : I s) (h : S.Meets C s as) : S.AlwaysAfter P s as := by
  induction as generalizing s with
  | nil => trivial
  | cons a as ih =>
    intro s' hstep
    obtain ⟨hC, hrest⟩ := h s' hstep
    obtain ⟨hI, hP⟩ := hgood s s' a hs hC hstep
    exact ⟨hP, ih hI hrest⟩

/-- The converse on runs that meet a condition `D` of their own. -/
theorem meets_of_alwaysAfter (hgood : ∀ s s' a, I s → D s a → C s a → S.step s a = some s' → I s')
    (hbad : ∀ s s' a, I s → D s a → ¬ C s a → S.step s a = some s' → ¬ P s')
    (hs : I s) (hD : S.Meets D s as) (h : S.AlwaysAfter P s as) : S.Meets C s as := by
  induction as generalizing s with
  | nil => trivial
  | cons a as ih =>
    intro s' hstep
    obtain ⟨hDa, hDrest⟩ := hD s' hstep
    obtain ⟨hP, hrest⟩ := h s' hstep
    have hC : C s a := by
      by_contra hC
      exact hbad s s' a hs hDa hC hstep hP
    exact ⟨hC, ih (hgood s s' a hs hDa hC hstep) hDrest hrest⟩

theorem meets_true (s : σ) (as : List α) : S.Meets (fun _ _ => True) s as := by
  induction as generalizing s with
  | nil => trivial
  | cons a as ih => exact fun s' _ => ⟨trivial, ih s'⟩

theorem alwaysAfter_iff (hgood : ∀ s s' a, I s → C s a → S.step s a = some s' → I s' ∧ P s')
    (hbad : ∀ s s' a, I s → ¬ C s a → S.step s a = some s' → ¬ P s')
    (hs : I s) (as : List α) : S.AlwaysAfter P s as ↔ S.Meets C s as :=
  ⟨meets_of_alwaysAfter (fun s s' a hI _ hC h => (hgood s s' a hI hC h).1)
      (fun s s' a hI _ hC h => hbad s s' a hI hC h) hs (meets_true s as),
    alwaysAfter_of_meets hgood hs⟩

end StepSystem
