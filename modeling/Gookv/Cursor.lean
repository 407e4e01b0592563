/-
Cursors over a list of entries, and walks over a list of keys.
-/
import Mathlib

variable {α : Type*}

structure Cursor (α : Type*) where
  entries : List α
  pos : ℕ

namespace Cursor

open List Option

def cur (c : Cursor α) : Option α := c.entries[c.pos]?

def seekToFirst (c : Cursor α) : Cursor α := { c with pos := 0 }

def seekToLast (c : Cursor α) : Cursor α := { c with pos := c.entries.length - 1 }

def next (c : Cursor α) : Cursor α := { c with pos := min (c.pos + 1) c.entries.length }

def prev (c : Cursor α) : Cursor α :=
  { c with pos := if c.pos = 0 then c.entries.length else c.pos - 1 }

def seek (c : Cursor α) (reached : α → Bool) : Cursor α :=
  { c with pos := c.entries.findIdx reached }

open Cursor

structure At (c : Cursor α) (A B : List α) : Prop where
  entries_eq : c.entries = A ++ B
  pos_eq : c.pos = A.length

variable {c : Cursor α} {A B : List α} {a b : α}

theorem At.cur (h : c.At A B) : c.cur = B.head? := by
  rw [Cursor.cur, h.entries_eq, h.pos_eq, List.getElem?_append_right le_rfl, Nat.sub_self,
    List.head?_eq_getElem?]

theorem At.congr {A' B' : List α} (h : c.At A B) (hA : A = A') (hB : B = B') : c.At A' B' :=
  hA ▸ hB ▸ h

theorem At.next (h : c.At A (b :: B)) : c.next.At (A ++ [b]) B where
  entries_eq := by simp [Cursor.next, h.entries_eq]
  pos_eq := by
    simp only [Cursor.next, h.entries_eq, h.pos_eq, List.length_append, List.length_cons,
      List.length_nil]
    omega

theorem At.next_end (h : c.At A []) : c.next.At A [] where
  entries_eq := h.entries_eq
  pos_eq := by simp [Cursor.next, h.entries_eq, h.pos_eq]

theorem At.prev (h : c.At (A ++ [a]) B) : c.prev.At A (a :: B) where
  entries_eq := by simp [Cursor.prev, h.entries_eq]
  pos_eq := by simp [Cursor.prev, h.pos_eq]

theorem At.prev_first (h : c.At [] B) : c.prev.At B [] where
  entries_eq := by simp [Cursor.prev, h.entries_eq]
  pos_eq := by simp [Cursor.prev, h.pos_eq, h.entries_eq]

theorem at_seek {reached : α → Bool} (he : c.entries = A ++ B)
    (hA : ∀ x ∈ A, reached x = false) (hB : ∀ x ∈ B.head?, reached x = true) :
    (c.seek reached).At A B where
  entries_eq := he
  pos_eq := by
    have hA' : A.findIdx reached = A.length := findIdx_eq_length.mpr hA
    rw [seek, he, findIdx_append, hA', if_neg (lt_irrefl _)]
    cases B with
    | nil => simp
    | cons b B => simp [findIdx_cons, hB b (by simp)]

theorem at_seekToFirst (c : Cursor α) : c.seekToFirst.At [] c.entries := ⟨rfl, rfl⟩

theorem at_seekToLast (h : c.entries = A ++ [a]) : c.seekToLast.At A [a] where
  entries_eq := h
  pos_eq := by simp [seekToLast, h]

theorem cur_seekToLast (c : Cursor α) : c.seekToLast.cur = c.entries.getLast? :=
  getLast?_eq_getElem?.symm

theorem eq_filter_blocks {κ : Type*} [LinearOrder κ] {f : α → κ} {l : List α}
    (h : l.Pairwise fun a b => f a ≤ f b) (k : κ) :
    l = l.filter (fun a => f a < k) ++ l.filter (fun a => f a = k) ++
      l.filter fun a => k < f a := by
  induction l with
  | nil => rfl
  | cons a l ih =>
    obtain ⟨ha, hl⟩ := pairwise_cons.mp h
    -- what is above the first entry is above its key
    have hnone : ∀ p : α → Prop, [DecidablePred p] → (∀ b, f a ≤ f b → ¬ p b) →
        l.filter (fun b => p b) = [] := by
      intro p _ hp
      rw [filter_eq_nil_iff]
      intro b hb
      simpa using hp b (ha b hb)
    rcases lt_trichotomy (f a) k with hlt | heq | hgt
    · have hne : ¬ k < f a := hlt.not_gt
      simp only [filter_cons, hlt, hlt.ne, hne, decide_true, decide_false, if_true,
        cons_append]
      rw [if_neg (by simp), if_neg (by simp), ← ih hl]
    · have hbelow := hnone (fun b => f b < k) fun b hb => not_lt.mpr (heq ▸ hb)
      have htail := ih hl
      rw [hbelow, nil_append] at htail
      simp only [filter_cons, heq, lt_irrefl, decide_true, decide_false, if_true]
      rw [if_neg (by simp), if_neg (by simp), hbelow, nil_append, cons_append, ← htail]
    · have hbelow := hnone (fun b => f b < k) fun b hb => not_lt.mpr (hgt.le.trans hb)
      have hown := hnone (fun b => f b = k) fun b hb => (hgt.trans_le hb).ne'
      have htail := ih hl
      rw [hbelow, hown, nil_append, nil_append] at htail
      simp only [filter_cons, hgt, hgt.ne', hgt.not_gt, decide_true, decide_false, if_true]
      rw [if_neg (by simp), if_neg (by simp), hbelow, hown, nil_append, nil_append,
        ← htail]

/-! ### One direction -/

variable {desc : Bool} {l : List α}

def directed (desc : Bool) (l : List α) : List α := if desc then l.reverse else l

theorem length_directed (desc : Bool) (l : List α) : (directed desc l).length = l.length := by
  cases desc with
  | false => rfl
  | true => exact length_reverse

theorem findSome?_of_pairwise {β : Type*} {R : α → α → Prop} (hR : ∀ a b, R a b → ¬ R b a)
    (hl : l.Pairwise R) {f : α → Option β} {y : β} :
    l.findSome? f = some y ↔ ∃ a ∈ l, f a = some y ∧ ∀ b ∈ l, R b a → f b = none := by
  rw [findSome?_eq_some_iff]
  constructor
  · rintro ⟨l₁, a, l₂, rfl, ha, hbefore⟩
    obtain ⟨-, hafter, hcross⟩ := pairwise_append.mp hl
    refine ⟨a, by simp, ha, fun b hb hba => ?_⟩
    rcases mem_append.mp hb with hb | hb
    · exact hbefore b hb
    · rcases mem_cons.mp hb with rfl | hb
      · exact absurd hba (hR _ _ hba)
      · exact absurd hba (hR _ _ ((pairwise_cons.mp hafter).1 b hb))
  · rintro ⟨a, hmem, ha, hnone⟩
    obtain ⟨l₁, l₂, rfl⟩ := append_of_mem hmem
    obtain ⟨-, -, hcross⟩ := pairwise_append.mp hl
    refine ⟨l₁, a, l₂, rfl, ha, fun b hb => ?_⟩
    exact hnone b (mem_append_left _ hb) (hcross b hb a (by simp))

theorem mem_directed : a ∈ directed desc l ↔ a ∈ l := by
  cases desc with
  | false => rfl
  | true => exact mem_reverse

theorem directed_map {β : Type*} (desc : Bool) (f : α → β) (l : List α) :
    directed desc (l.map f) = (directed desc l).map f := by
  cases desc with
  | false => rfl
  | true => exact map_reverse.symm

def advance (desc : Bool) (c : Cursor α) : Cursor α := if desc then c.prev else c.next

def seekToStart (desc : Bool) (c : Cursor α) : Cursor α :=
  if desc then c.seekToLast else c.seekToFirst

def ahead (desc : Bool) (c : Cursor α) : List α :=
  if desc then
    if c.pos < c.entries.length then (c.entries.take (c.pos + 1)).reverse else []
  else c.entries.drop c.pos

theorem head?_ahead (desc : Bool) (c : Cursor α) : (c.ahead desc).head? = c.cur := by
  rw [ahead, cur]
  cases desc with
  | false =>
    rw [if_neg Bool.false_ne_true, head?_drop]
  | true =>
    rw [if_pos rfl]
    by_cases hpos : c.pos < c.entries.length
    · rw [if_pos hpos, head?_reverse, getLast?_take, if_neg (by omega),
        Nat.add_sub_cancel, getElem?_eq_getElem hpos]
      rfl
    · rw [if_neg hpos, getElem?_eq_none (by omega)]
      rfl

@[simp] theorem entries_advance (desc : Bool) (c : Cursor α) :
    (c.advance desc).entries = c.entries := by
  cases desc with
  | false => rfl
  | true => rfl

theorem ahead_advance (h : c.ahead desc = a :: l) : (c.advance desc).ahead desc = l := by
  rw [ahead] at h ⊢
  cases desc with
  | false =>
    rw [if_neg Bool.false_ne_true] at h ⊢
    have hpos : c.pos < c.entries.length := by
      by_contra hpos
      rw [drop_eq_nil_of_le (by omega)] at h
      cases h
    show c.entries.drop (min (c.pos + 1) c.entries.length) = l
    rw [Nat.min_eq_left hpos, ← tail_drop, h]
    rfl
  | true =>
    rw [if_pos rfl] at h ⊢
    by_cases hpos : c.pos < c.entries.length
    · rw [if_pos hpos] at h
      show (if (if c.pos = 0 then c.entries.length else c.pos - 1) < c.entries.length then
        (c.entries.take ((if c.pos = 0 then c.entries.length else c.pos - 1) + 1)).reverse
        else []) = l
      have htail : ((c.entries.take (c.pos + 1)).reverse).tail =
          (c.entries.take c.pos).reverse := by
        rw [← take_concat_get' _ _ hpos, reverse_append]
        rfl
      rw [h, tail_cons] at htail
      by_cases hzero : c.pos = 0
      · rw [if_pos hzero, if_neg (lt_irrefl _), htail, hzero]
        rfl
      · rw [if_neg hzero, if_pos (by omega), Nat.sub_add_cancel (by omega), htail]
    · rw [if_neg hpos] at h
      cases h

theorem ahead_seekToStart (desc : Bool) (c : Cursor α) :
    (c.seekToStart desc).ahead desc = directed desc c.entries := by
  cases desc with
  | false => rfl
  | true =>
    show (if c.entries.length - 1 < c.entries.length then
      (c.entries.take (c.entries.length - 1 + 1)).reverse else []) = c.entries.reverse
    by_cases hlen : c.entries = []
    · rw [hlen]
      rfl
    · have hpos := length_pos_iff.mpr hlen
      rw [if_pos (by omega), take_of_length_le (by omega)]

theorem length_ahead_le (desc : Bool) (c : Cursor α) :
    (c.ahead desc).length ≤ c.entries.length := by
  rw [ahead]
  split
  · split
    · rw [length_reverse]
      exact length_take_le' ..
    · exact Nat.zero_le _
  · rw [length_drop]
    exact Nat.sub_le ..

end Cursor

/-! ### Walks -/

/-- What is decided at a key: `finish` ends the walk, after `diverge` it has no result. -/
inductive Visit (β ε : Type*)
  | skip
  | yield (value : β)
  | stop (err : ε)
  | finish
  | diverge

open Visit

variable {ι κ β ε : Type*}

def walk (key : ι → κ) (f : ι → Visit β ε) :
    List ι → Option (List (κ × β) × Option (κ × ε))
  | [] => some ([], none)
  | i :: is =>
    match f i with
    | .skip => walk key f is
    | .yield v => (walk key f is).map fun r => ((key i, v) :: r.1, r.2)
    | .stop e => some ([], some (key i, e))
    | .finish => some ([], none)
    | .diverge => none

variable {key : ι → κ} {f a b : ι → Visit β ε} {l : List ι} {is : List ι}

theorem key_mem_of_walk {ps : List (κ × β)} {o : Option (κ × ε)} (h : walk key f l = some (ps, o)) :
    (∀ p ∈ ps, p.1 ∈ l.map key) ∧ ∀ p ∈ o, p.1 ∈ l.map key := by
  induction l generalizing ps o with
  | nil =>
    cases h
    simp
  | cons i is ih =>
    rw [walk] at h
    cases hf : f i with
    | skip =>
      rw [hf] at h
      obtain ⟨h1, h2⟩ := ih h
      exact ⟨fun p hp => List.mem_cons_of_mem _ (h1 p hp),
        fun p hp => List.mem_cons_of_mem _ (h2 p hp)⟩
    | yield v =>
      rw [hf] at h
      obtain ⟨⟨ps', o'⟩, hr, hp⟩ := Option.map_eq_some_iff.mp h
      obtain ⟨rfl, rfl⟩ := Prod.mk.inj hp
      obtain ⟨h1, h2⟩ := ih hr
      refine ⟨fun p hp => ?_, fun p hp => List.mem_cons_of_mem _ (h2 p hp)⟩
      rcases List.mem_cons.mp hp with rfl | hp
      · simp
      · exact List.mem_cons_of_mem _ (h1 p hp)
    | stop e | finish =>
      rw [hf] at h
      cases h
      simp
    | diverge =>
      rw [hf] at h
      cases h

def Visit.IsPlain : Visit β ε → Prop
  | .finish | .diverge => False
  | _ => True

theorem walk_eq_nil_iff (hf : ∀ i ∈ l, (f i).IsPlain) :
    walk key f l = some ([], none) ↔ ∀ i ∈ l, f i = .skip := by
  induction l with
  | nil => simp [walk]
  | cons i is ih =>
    obtain ⟨hi, his⟩ := List.forall_mem_cons.mp hf
    rw [walk, List.forall_mem_cons]
    cases hfi : f i with
    | skip => simpa using ih his
    | yield v => simp
    | stop e => simp
    | finish | diverge => simp [hfi, Visit.IsPlain] at hi

theorem exists_walk (key : ι → κ) (hf : ∀ i ∈ l, (f i).IsPlain) : ∃ r, walk key f l = some r := by
  induction l with
  | nil => exact ⟨_, rfl⟩
  | cons i is ih =>
    obtain ⟨hi, his⟩ := List.forall_mem_cons.mp hf
    obtain ⟨r, hr⟩ := ih his
    rw [walk]
    cases hfi : f i with
    | skip => exact ⟨r, hr⟩
    | yield v => exact ⟨_, congrArg (Option.map _) hr⟩
    | stop e => exact ⟨_, rfl⟩
    | finish | diverge => simp [hfi, Visit.IsPlain] at hi

def AgreeAt (a b : ι → Visit β ε) (l : List ι) (i : ι) : Prop :=
  a i = b i ∨ a i = .finish ∧ ∀ j ∈ l, b j = .skip

variable {r : List (κ × β) × Option (κ × ε)} {ks : List κ} {i : ι} {g : κ → Visit β ε}
  {R : κ → κ → Prop}

theorem agreeAt_of_walk_eq (hi : key i ∉ is.map key)
    (hb : ∀ j ∈ i :: is, (b j).IsPlain) (h : walk key a (i :: is) = walk key b (i :: is)) :
    AgreeAt a b (i :: is) i := by
  obtain ⟨hbi, hbis⟩ := List.forall_mem_cons.mp hb
  obtain ⟨⟨ps, o⟩, hr⟩ := exists_walk key hbis
  -- the rest of a walk neither yields a value for the key nor stops there
  have hyield : ∀ {g : ι → Visit β ε} {v qs q}, walk key g is ≠ some ((key i, v) :: qs, q) :=
    fun {_ v _ _} hg => hi ((key_mem_of_walk hg).1 (key i, v) (by simp))
  have hstop : ∀ {g : ι → Visit β ε} {e qs}, walk key g is ≠ some (qs, some (key i, e)) :=
    fun hg => hi ((key_mem_of_walk hg).2 _ rfl)
  rw [walk, walk, hr] at h
  unfold AgreeAt
  cases ha : a i with
  | skip =>
    rw [ha] at h
    cases hbv : b i with
    | skip => exact Or.inl rfl
    | yield v =>
      rw [hbv] at h
      exact absurd h hyield
    | stop e =>
      rw [hbv] at h
      exact absurd h hstop
    | finish | diverge => simp [hbv, Visit.IsPlain] at hbi
  | yield v =>
    rw [ha] at h
    cases hbv : b i with
    | skip =>
      rw [hbv] at h
      obtain ⟨r, -, hp⟩ := Option.map_eq_some_iff.mp h
      rw [← hp] at hr
      exact absurd hr hyield
    | yield v' =>
      rw [hbv] at h
      obtain ⟨r, -, hp⟩ := Option.map_eq_some_iff.mp h
      simp only [Prod.mk.injEq, List.cons.injEq, true_and] at hp
      rw [hp.1.1]
      exact Or.inl rfl
    | stop e =>
      rw [hbv] at h
      obtain ⟨r, -, hp⟩ := Option.map_eq_some_iff.mp h
      simp at hp
    | finish | diverge => simp [hbv, Visit.IsPlain] at hbi
  | stop e =>
    rw [ha] at h
    cases hbv : b i with
    | skip =>
      rw [hbv] at h
      exact absurd (hr.trans h.symm) hstop
    | yield v' =>
      rw [hbv] at h
      simp at h
    | stop e' =>
      rw [hbv] at h
      simp only [Option.some_inj, Prod.mk.injEq, true_and] at h
      rw [h]
      exact Or.inl rfl
    | finish | diverge => simp [hbv, Visit.IsPlain] at hbi
  | finish =>
    have hnil : walk key b (i :: is) = some ([], none) := by rw [walk, hr, ← h, ha]
    exact Or.inr ⟨rfl, (walk_eq_nil_iff hb).mp hnil⟩
  | diverge =>
    rw [ha] at h
    cases hbv : b i <;> simp [hbv, Visit.IsPlain] at hbi h

theorem walk_cons_eq_iff (h : a i = b i) (hstop : ∀ e, b i ≠ .stop e) (hb : (b i).IsPlain) :
    walk key a (i :: is) = walk key b (i :: is) ↔ walk key a is = walk key b is := by
  rw [walk, walk, h]
  cases hbv : b i with
  | skip => exact Iff.rfl
  | yield v =>
    refine ⟨fun h' => ?_, fun h' => by rw [h']⟩
    refine Option.map_injective (fun r r' hrr => ?_) h'
    simp only [Prod.mk.injEq, List.cons.injEq, true_and] at hrr
    exact Prod.ext hrr.1 hrr.2
  | stop e => exact absurd hbv (hstop e)
  | finish | diverge => simp [hbv, Visit.IsPlain] at hb

theorem walk_eq_iff (hR : ∀ k k', R k k' → ¬R k' k)
    (hsorted : l.Pairwise fun i j => R (key i) (key j)) (hb : ∀ i ∈ l, (b i).IsPlain) :
    walk key a l = walk key b l ↔ ∀ i ∈ l,
      (∀ j ∈ l, R (key j) (key i) → (∀ e, b j ≠ .stop e) ∧ a j ≠ .finish) →
        a i = b i ∨ a i = .finish ∧ ∀ j ∈ l, ¬R (key j) (key i) → b j = .skip := by
  induction l with
  | nil => simp [walk]
  | cons i is ih =>
    obtain ⟨hbefore, hsorted'⟩ := List.pairwise_cons.mp hsorted
    obtain ⟨hbi, hb'⟩ := List.forall_mem_cons.mp hb
    have hni : key i ∉ is.map key := by
      intro hmem
      obtain ⟨j, hj, hji⟩ := List.mem_map.mp hmem
      have hij := hbefore j hj
      rw [hji] at hij
      exact hR _ _ hij hij
    have hnone : ∀ j ∈ i :: is, ¬R (key j) (key i) := by
      intro j hj hji
      rcases List.mem_cons.mp hj with rfl | hj
      · exact hR _ _ hji hji
      · exact hR _ _ (hbefore j hj) hji
    rw [List.forall_mem_cons]
    constructor
    · intro h
      have hagree := agreeAt_of_walk_eq hni hb h
      refine ⟨fun _ => hagree.imp_right fun h' => ⟨h'.1, fun j hj _ => h'.2 j hj⟩, ?_⟩
      intro x hx hpre
      obtain ⟨hstop, hfin⟩ := hpre i (by simp) (hbefore x hx)
      have hai : a i = b i := hagree.resolve_right fun h' => hfin h'.1
      have hrest := (ih hsorted' hb').mp ((walk_cons_eq_iff hai hstop hbi).mp h) x hx
        fun j hj hjx => hpre j (by simp [hj]) hjx
      refine hrest.imp_right fun ⟨h1, h2⟩ => ⟨h1, fun j hj hjx => ?_⟩
      rcases List.mem_cons.mp hj with rfl | hj
      · exact absurd (hbefore x hx) hjx
      · exact h2 j hj hjx
    · rintro ⟨hhead, hrest⟩
      rcases hhead fun j hj hji => absurd hji (hnone j hj) with hai | ⟨hfin, hskip⟩
      · by_cases hstop : ∀ e, b i ≠ .stop e
        · refine (walk_cons_eq_iff hai hstop hbi).mpr ((ih hsorted' hb').mpr ?_)
          intro x hx hpre
          refine (hrest x hx fun j hj hjx => ?_).imp_right fun ⟨h1, h2⟩ =>
            ⟨h1, fun j hj => h2 j (by simp [hj])⟩
          rcases List.mem_cons.mp hj with rfl | hj
          · refine ⟨hstop, fun hfin => ?_⟩
            rw [hai] at hfin
            simp [hfin, Visit.IsPlain] at hbi
          · exact hpre j hj hjx
        · push Not at hstop
          obtain ⟨e, he⟩ := hstop
          rw [walk, walk, hai, he]
      · have hall : ∀ j ∈ i :: is, b j = .skip := fun j hj => hskip j hj (hnone j hj)
        rw [(walk_eq_nil_iff hb).mpr hall, walk, hfin]

theorem walk_comp (g : κ → Visit β ε) (key : ι → κ) (l : List ι) :
    walk key (fun i => g (key i)) l = walk id g (l.map key) := by
  induction l with
  | nil => rfl
  | cons i is ih => simp only [walk, List.map_cons, ih, id_eq]

structure IsWalk (R : κ → κ → Prop) (g : κ → Visit β ε) (ks : List κ)
    (r : List (κ × β) × Option (κ × ε)) : Prop where
  sorted : r.1.Pairwise fun p q => R p.1 q.1
  mem_iff : ∀ k v, (k, v) ∈ r.1 ↔
    k ∈ ks ∧ g k = .yield v ∧ ∀ j ∈ ks, R j k → ∀ e, g j ≠ .stop e
  stop_iff : ∀ k e, r.2 = some (k, e) ↔
    k ∈ ks ∧ g k = .stop e ∧ ∀ j ∈ ks, R j k → ∀ e, g j ≠ .stop e

theorem isWalk_of_walk (hR : ∀ k k', R k k' → ¬R k' k) (hsorted : ks.Pairwise R)
    (hg : ∀ k ∈ ks, (g k).IsPlain) (h : walk id g ks = some r) : IsWalk R g ks r := by
  induction ks generalizing r with
  | nil =>
    cases h
    exact ⟨by simp, by simp, by simp⟩
  | cons k ks ih =>
    obtain ⟨hk, hsorted'⟩ := List.pairwise_cons.mp hsorted
    obtain ⟨hgk, hg'⟩ := List.forall_mem_cons.mp hg
    have hkk : ¬R k k := fun hkk => hR k k hkk hkk
    rw [walk] at h
    cases hv : g k with
    | skip =>
      rw [hv] at h
      obtain ⟨h1, h2, h3⟩ := ih hsorted' hg' h
      refine ⟨h1, fun k' v => (h2 k' v).trans ?_, fun k' e => (h3 k' e).trans ?_⟩ <;>
        grind
    | yield v =>
      rw [hv] at h
      obtain ⟨⟨ps, o⟩, hr, rfl⟩ := Option.map_eq_some_iff.mp h
      obtain ⟨h1, h2, h3⟩ := ih hsorted' hg' hr
      refine ⟨List.pairwise_cons.mpr ⟨fun p hp => hk _ ((h2 p.1 p.2).mp hp).1, h1⟩, ?_, ?_⟩
      · intro k' v'
        have := h2 k' v'
        have := hR k k'
        grind
      · intro k' e
        have := h3 k' e
        grind
    | stop e =>
      rw [hv] at h
      cases h
      refine ⟨by simp, fun k' v => ?_, fun k' e' => ?_⟩ <;> grind
    | finish | diverge => simp [hv, Visit.IsPlain] at hgk

theorem IsWalk.unique (hR : ∀ k k', R k k' → ¬R k' k) {r' : List (κ × β) × Option (κ × ε)}
    (h : IsWalk R g ks r) (h' : IsWalk R g ks r') : r = r' := by
  have hnodup : ∀ {ps : List (κ × β)}, (ps.Pairwise fun p q => R p.1 q.1) → ps.Nodup := by
    intro ps hps
    refine List.Pairwise.imp (fun {p q} hpq heq => ?_) hps
    subst heq
    exact hR _ _ hpq hpq
  have hperm : r.1.Perm r'.1 := (List.perm_ext_iff_of_nodup (hnodup h.sorted)
    (hnodup h'.sorted)).mpr fun p => (h.mem_iff p.1 p.2).trans (h'.mem_iff p.1 p.2).symm
  refine Prod.ext (hperm.eq_of_pairwise (fun p q _ _ hpq hqp => ?_) h.sorted h'.sorted)
    (Option.ext fun p => (h.stop_iff p.1 p.2).trans (h'.stop_iff p.1 p.2).symm)
  exact absurd hqp (hR _ _ hpq)
