/-
Ranges of timestamps: `TSOAllocator.Allocate` of `internal/pd/server.go` and
`TSOBuffer.GetTS` of `internal/pd/tso_buffer.go`.
-/
import Gookv.Tso

namespace TsoRanges

open List Option

open Tso (toUint64 tsoBatchSize)

def int64 (z : ℤ) : ℤ := z.bmod (2 ^ 64)

structure Timestamp where
  physical : ℤ
  logical : ℤ
  deriving DecidableEq

def allocate (t : Timestamp) (now now' count : ℤ) : Option Timestamp :=
  if count ≤ 0 then none
  else
    let t : Timestamp := if t.physical < now then ⟨now, 0⟩ else t
    let logical := int64 (t.logical + count)
    if 2 ^ 18 ≤ logical then
      let next := int64 (t.physical + 1)
      some ⟨if next ≤ now' then now' else next, count⟩
    else some ⟨t.physical, logical⟩

structure Range where
  physical : ℤ
  logical : ℤ
  count : ℤ
  deriving DecidableEq

open Timestamp

/-- `ComposeTS(physical, logical - count + 1)` up to `ComposeTS(physical, logical)`. -/
def Range.has (r : Range) (ts : ℕ) : Prop :=
  ∃ i, 0 ≤ i ∧ i < r.count ∧ ts = toUint64 r.physical (r.logical - i)

def Range.Below (r r' : Range) : Prop := ∀ ts ts', r.has ts → r'.has ts' → ts < ts'

def Increasing (ranges : List Range) : Prop := ranges.Pairwise Range.Below

structure Buffer where
  physical : ℤ
  logical : ℤ
  remain : ℤ
  deriving DecidableEq

structure State where
  allocator : Timestamp
  buffer : Buffer
  allocated : List Range
  served : List Range
  deriving DecidableEq

def State.allocate (s : State) (now now' count : ℤ) : Option State :=
  (TsoRanges.allocate s.allocator now now' count).map fun ts =>
    { s with
      allocator := ts
      allocated := s.allocated ++ [⟨ts.physical, ts.logical, count⟩] }

def State.refill (s : State) (now now' batchSize : ℤ) : Option State :=
  (s.allocate now now' batchSize).map fun s =>
    { s with buffer :=
        ⟨s.allocator.physical, int64 (s.allocator.logical - batchSize), batchSize⟩ }

def State.serve (s : State) (count : ℤ) : State :=
  let logical := int64 (s.buffer.logical + count)
  { s with
    buffer := ⟨s.buffer.physical, logical, s.buffer.remain - count⟩
    served := s.served ++ [⟨s.buffer.physical, logical, count⟩] }

def State.getTS (s : State) (now now' count : ℤ) (answered : Bool) : State :=
  let count := if count ≤ 0 then 1 else count
  if s.buffer.remain < count then
    let batchSize : ℤ := if (tsoBatchSize : ℤ) < count then count else tsoBatchSize
    if answered then ((s.refill now now' batchSize).map (·.serve count)).getD s else s
  else s.serve count

inductive Call
  | allocate (now now' count : ℤ)
  | getTS (now now' count : ℤ) (answered : Bool)
  | reset
  deriving DecidableEq

def step (s : State) : Call → Option State
  | .allocate now now' count => some ((s.allocate now now' count).getD s)
  | .getTS now now' count answered => some (s.getTS now now' count answered)
  | .reset => some { s with buffer := ⟨0, 0, 0⟩ }

def start : State := ⟨⟨0, 0⟩, ⟨0, 0, 0⟩, [], []⟩

def system : StepSystem State Call := ⟨start, step⟩

/-- What `GetTS` asks of the allocator. -/
def State.takes (s : State) (count : ℤ) : ℤ :=
  let count := if count ≤ 0 then 1 else count
  if s.buffer.remain < count then
    if (tsoBatchSize : ℤ) < count then count else tsoBatchSize
  else 0

/-- The clock shows at most `m`, and the millisecond is below `m` when its logical part is used
up. -/
def Timely (m : ℤ) (t : Timestamp) (now now' count : ℤ) : Prop :=
  now ≤ m ∧ (2 ^ 18 ≤ t.logical + count → t.physical < m ∧ now' ≤ m)

instance (m : ℤ) (t : Timestamp) (now now' count : ℤ) : Decidable (Timely m t now now' count) :=
  inferInstanceAs (Decidable (_ ∧ (_ → _)))

def Within (n m : ℤ) (s : State) : Call → Prop
  | .allocate now now' count => count ≤ n ∧ Timely m s.allocator now now' count
  | .getTS now now' count _ => count ≤ n ∧ Timely m s.allocator now now' (s.takes count)
  | .reset => True

instance (n m : ℤ) (s : State) : (c : Call) → Decidable (Within n m s c)
  | .allocate _ _ _ | .getTS _ _ _ _ => inferInstanceAs (Decidable (_ ∧ Timely _ _ _ _ _))
  | .reset => inferInstanceAs (Decidable True)

open State

theorem int64_of_lt {z : ℤ} (hlo : -2 ^ 63 ≤ z) (hhi : z < 2 ^ 63) : int64 z = z :=
  Int.bmod_eq_of_le (by omega) (by omega)

def Timestamp.value (t : Timestamp) : ℤ := t.physical * 2 ^ 18 + t.logical

def Range.top (r : Range) : ℤ := r.physical * 2 ^ 18 + r.logical

structure Range.Fits (r : Range) : Prop where
  physical_nonneg : 0 ≤ r.physical
  physical_lt : r.physical < 2 ^ 46
  count_le : r.count ≤ r.logical
  logical_lt : r.logical < 2 ^ 18

theorem Range.Fits.of_has {r : Range} (h : r.Fits) {ts : ℕ} (hts : r.has ts) :
    r.top - r.count < ts ∧ ts ≤ r.top := by
  obtain ⟨i, hi, hcount, rfl⟩ := hts
  obtain ⟨hphys, hphys', hle, hlt⟩ := h
  obtain ⟨p, hp⟩ := Int.eq_ofNat_of_zero_le hphys
  obtain ⟨l, hl⟩ := Int.eq_ofNat_of_zero_le (show 0 ≤ r.logical - i by omega)
  have hval : toUint64 r.physical (r.logical - i) = p * 2 ^ 18 + l := by
    rw [hp, hl]
    exact Tso.toUint64_eq (by omega) (by omega)
  rw [hval, Range.top]
  push_cast
  omega

theorem Range.Fits.below {r r' : Range} (h : r.Fits) (h' : r'.Fits)
    (hle : r.top ≤ r'.top - r'.count) : r.Below r' := by
  intro ts ts' hts hts'
  have hupper := (h.of_has hts).2
  have hlower := (h'.of_has hts').1
  omega

structure Timestamp.Small (t : Timestamp) : Prop where
  physical_nonneg : 0 ≤ t.physical
  physical_lt : t.physical < 2 ^ 46
  logical_nonneg : 0 ≤ t.logical
  logical_lt : t.logical < 2 ^ 18

theorem allocate_spec {t t' : Timestamp} {now now' count m : ℤ} (ht : t.Small)
    (hcount : count < 2 ^ 18) (hm : m < 2 ^ 46) (htimely : Timely m t now now' count)
    (h : allocate t now now' count = some t') :
    1 ≤ count ∧ t'.Small ∧ count ≤ t'.logical ∧ t.value ≤ t'.value - count := by
  obtain ⟨hphys, hphys', hlog, hlog'⟩ := ht
  obtain ⟨hread, hfull⟩ := htimely
  rw [allocate] at h
  split at h
  · cases h
  rename_i hpos
  by_cases hnow : t.physical < now
  · -- the first timestamps of a new millisecond
    simp only [if_pos hnow, zero_add] at h
    rw [int64_of_lt (by omega) (by omega), if_neg (by omega), some_inj] at h
    subst h
    refine ⟨by omega, ⟨by dsimp only; omega, hread.trans_lt hm, by dsimp only; omega, hcount⟩,
      le_rfl, ?_⟩
    simp only [value]
    omega
  · simp only [if_neg hnow] at h
    rw [int64_of_lt (by omega) (by omega), int64_of_lt (by omega) (by omega)] at h
    split at h
    · -- the logical part is full
      rename_i hge
      obtain ⟨hbelow, hread'⟩ := hfull hge
      rw [some_inj] at h
      subst h
      have hnext : t.physical + 1 ≤ if t.physical + 1 ≤ now' then now' else t.physical + 1 := by
        split <;> omega
      have hle : (if t.physical + 1 ≤ now' then now' else t.physical + 1) ≤ m := by
        split <;> omega
      refine ⟨by omega, ⟨by dsimp only; omega, hle.trans_lt hm, by dsimp only; omega, hcount⟩,
        le_rfl, ?_⟩
      simp only [value]
      omega
    · rw [some_inj] at h
      subst h
      refine ⟨by omega, ⟨hphys, hphys', by dsimp only; omega, by dsimp only; omega⟩,
        by dsimp only; omega, ?_⟩
      simp only [value]
      omega

/-! ### Runs with small counts -/

theorem Increasing.concat {ranges : List Range} {r : Range} (h : Increasing ranges)
    (hranges : ∀ x ∈ ranges, x.Fits ∧ x.top ≤ r.top - r.count) (hr : r.Fits) :
    Increasing (ranges ++ [r]) := by
  refine pairwise_append.mpr ⟨h, pairwise_singleton _ _, fun x hx y hy => ?_⟩
  rw [mem_singleton.mp hy]
  exact (hranges x hx).1.below hr (hranges x hx).2

structure Buffer.Ready (b : Buffer) (value : ℤ) (served : List Range) : Prop where
  physical_nonneg : 0 ≤ b.physical
  physical_lt : b.physical < 2 ^ 46
  logical_nonneg : 0 ≤ b.logical
  logical_lt : b.logical + b.remain < 2 ^ 18
  le_value : b.physical * 2 ^ 18 + b.logical + b.remain ≤ value
  above : ∀ r ∈ served, r.top ≤ b.physical * 2 ^ 18 + b.logical

structure Inv (s : State) : Prop where
  allocator : s.allocator.Small
  allocated : ∀ r ∈ s.allocated, r.Fits ∧ r.top ≤ s.allocator.value
  served : ∀ r ∈ s.served, r.Fits ∧ r.top ≤ s.allocator.value
  increasing : Increasing s.allocated ∧ Increasing s.served
  buffer : 0 < s.buffer.remain → s.buffer.Ready s.allocator.value s.served

theorem inv_start : Inv start where
  allocator := ⟨le_rfl, by decide, le_rfl, by decide⟩
  allocated _ h := absurd h List.not_mem_nil
  served _ h := absurd h List.not_mem_nil
  increasing := ⟨List.Pairwise.nil, List.Pairwise.nil⟩
  buffer h := absurd h (lt_irrefl 0)

variable {s s' : State} {now now' count n m : ℤ}

theorem Buffer.Ready.mono {b : Buffer} {v v' : ℤ} {served : List Range} (h : b.Ready v served)
    (hle : v ≤ v') : b.Ready v' served :=
  { h with le_value := h.le_value.trans hle }

theorem Inv.allocate (h : Inv s) (hcount : count < 2 ^ 18) (hm : m < 2 ^ 46)
    (htimely : Timely m s.allocator now now' count)
    (hs : s.allocate now now' count = some s') :
    Inv s' ∧ s'.served = s.served ∧ count ≤ s'.allocator.logical ∧ 1 ≤ count ∧
      s.allocator.value ≤ s'.allocator.value - count := by
  obtain ⟨t, ht, rfl⟩ := map_eq_some_iff.mp hs
  obtain ⟨hpos, hsmall, hle, habove⟩ := allocate_spec h.allocator hcount hm htimely ht
  have hfits : (⟨t.physical, t.logical, count⟩ : Range).Fits :=
    ⟨hsmall.physical_nonneg, hsmall.physical_lt, hle, hsmall.logical_lt⟩
  refine ⟨⟨hsmall, ?_, ?_, ⟨?_, h.increasing.2⟩, ?_⟩, rfl, hle, hpos, habove⟩
  · intro r hr
    rcases mem_append.mp hr with hr | hr
    · exact ⟨(h.allocated r hr).1, by have := (h.allocated r hr).2; dsimp only; omega⟩
    · rw [mem_singleton.mp hr]
      exact ⟨hfits, le_rfl⟩
  · exact fun r hr => ⟨(h.served r hr).1, by have := (h.served r hr).2; dsimp only; omega⟩
  · refine h.increasing.1.concat (fun r hr => ⟨(h.allocated r hr).1, ?_⟩) hfits
    exact (h.allocated r hr).2.trans habove
  · exact fun hremain => (h.buffer hremain).mono (by dsimp only; omega)

theorem Inv.refill (h : Inv s) (hcount : count < 2 ^ 18) (hm : m < 2 ^ 46)
    (htimely : Timely m s.allocator now now' count) (hs : s.refill now now' count = some s') :
    Inv s' ∧ s'.buffer.remain = count := by
  obtain ⟨s₁, hs₁, rfl⟩ := map_eq_some_iff.mp hs
  obtain ⟨h₁, hserved, hle, hpos, habove⟩ := h.allocate hcount hm htimely hs₁
  have hsub : int64 (s₁.allocator.logical - count) = s₁.allocator.logical - count := by
    have := h₁.allocator.logical_lt
    exact int64_of_lt (by omega) (by omega)
  refine ⟨{ h₁ with buffer := fun _ => ?_ }, rfl⟩
  rw [hsub]
  refine ⟨h₁.allocator.physical_nonneg, h₁.allocator.physical_lt, by dsimp only; omega, ?_, ?_, ?_⟩
  · have := h₁.allocator.logical_lt
    dsimp only
    omega
  · simp only [value]
    omega
  · intro r hr
    have htop : r.top ≤ s.allocator.value := (h.served r (hserved ▸ hr)).2
    have hval : s₁.allocator.value =
      s₁.allocator.physical * 2 ^ 18 + s₁.allocator.logical := rfl
    dsimp only
    omega

theorem Inv.serve (h : Inv s) (hpos : 1 ≤ count) (hcount : count ≤ s.buffer.remain) :
    Inv (s.serve count) := by
  have hready := h.buffer (by omega)
  have hadd : int64 (s.buffer.logical + count) = s.buffer.logical + count := by
    have := hready.logical_nonneg
    have := hready.logical_lt
    exact int64_of_lt (by omega) (by omega)
  obtain ⟨hphys, hphys', hlog, hlog', hvalue, habove⟩ := hready
  rw [State.serve, hadd]
  set r : Range := ⟨s.buffer.physical, s.buffer.logical + count, count⟩ with hr
  have htop : r.top = s.buffer.physical * 2 ^ 18 + s.buffer.logical + count := by
    rw [Range.top, hr, add_assoc]
  have hfits : r.Fits := ⟨hphys, hphys', by rw [hr]; dsimp only; omega, by rw [hr]; dsimp only; omega⟩
  have hbelow : ∀ x ∈ s.served, x.Fits ∧ x.top ≤ r.top - r.count := by
    intro x hx
    have := habove x hx
    exact ⟨(h.served x hx).1, by rw [htop, hr]; dsimp only; omega⟩
  have hall : ∀ x ∈ s.served ++ [r], x.Fits ∧ x.top ≤ r.top := by
    intro x hx
    rcases List.mem_append.mp hx with hx | hx
    · exact ⟨(h.served x hx).1, by have := habove x hx; omega⟩
    · rw [List.mem_singleton.mp hx]
      exact ⟨hfits, le_rfl⟩
  refine ⟨h.allocator, h.allocated, fun x hx => ⟨(hall x hx).1, ?_⟩,
    ⟨h.increasing.1, h.increasing.2.concat hbelow hfits⟩, fun hremain => ?_⟩
  · have := (hall x hx).2
    dsimp only
    omega
  · dsimp only at hremain ⊢
    refine ⟨hphys, hphys', by dsimp only; omega, by dsimp only; omega, by dsimp only; omega, ?_⟩
    intro x hx
    have := (hall x hx).2
    dsimp only
    omega

theorem Inv.getTS (hn : n < 2 ^ 18) (hm : m < 2 ^ 46) (h : Inv s) {answered : Bool}
    (hcount : count ≤ n) (htimely : Timely m s.allocator now now' (s.takes count)) :
    Inv (s.getTS now now' count answered) := by
  rw [State.takes] at htimely
  rw [State.getTS]
  simp only at htimely ⊢
  set c : ℤ := if count ≤ 0 then 1 else count with hc
  have hpos : 1 ≤ c ∧ c < 2 ^ 18 := by
    rw [hc]
    split <;> omega
  set batch : ℤ := if (tsoBatchSize : ℤ) < c then c else tsoBatchSize with hbatch
  have hbig : c ≤ batch ∧ batch < 2 ^ 18 := by
    rw [hbatch, tsoBatchSize]
    split <;> omega
  by_cases hremain : s.buffer.remain < c
  · simp only [if_pos hremain] at htimely ⊢
    cases answered with
    | false => exact h
    | true =>
      rcases hrefill : s.refill now now' batch with _ | s₁
      · exact h
      · obtain ⟨h₁, hremain₁⟩ := h.refill hbig.2 hm htimely hrefill
        exact h₁.serve hpos.1 (hremain₁ ▸ hbig.1)
  · rw [if_neg hremain]
    exact h.serve hpos.1 (not_lt.mp hremain)

theorem Inv.step (hn : n < 2 ^ 18) (hm : m < 2 ^ 46) (h : Inv s) {c : Call}
    (hwithin : Within n m s c) (hs : step s c = some s') : Inv s' := by
  cases c with
  | allocate now now' count =>
    cases hs
    rcases hs' : s.allocate now now' count with _ | s₁
    · exact h
    · exact (h.allocate (hwithin.1.trans_lt hn) hm hwithin.2 hs').1
  | getTS now now' count answered =>
    cases hs
    exact h.getTS hn hm hwithin.1 hwithin.2
  | reset =>
    cases hs
    exact { h with buffer := fun hremain => absurd hremain (lt_irrefl 0) }

theorem increasing_of_small (hn : n < 2 ^ 18) (hm : m < 2 ^ 46)
    (h : system.ReachableWhen (Within n m) s) : Increasing s.allocated ∧ Increasing s.served :=
  (StepSystem.ReachableWhen.invariant inv_start
    (fun _ _ _ hs hwithin hstep => Inv.step hn hm hs hwithin hstep) h).increasing

/-! ### Large counts and late clocks -/

theorem not_increasing {r r' : Range} {ts' ts : ℕ} (before between after : List Range)
    (hr : r.has ts) (hr' : r'.has ts') (hle : ts' ≤ ts) :
    ¬ Increasing (before ++ r :: (between ++ r' :: after)) := by
  intro h
  have hbelow := (pairwise_cons.mp (pairwise_append.mp h).2.1).1 r' (by simp)
  exact absurd (hbelow ts ts' hr hr') (not_lt.mpr hle)

theorem Within.mono {n' m' : ℤ} (hn : n ≤ n') (hm : m ≤ m') (s : State) (c : Call)
    (h : Within n m s c) : Within n' m' s c := by
  cases c with
  | reset => trivial
  | allocate _ _ _ | getTS _ _ _ _ =>
    obtain ⟨hcount, hread, hfull⟩ := h
    exact ⟨hcount.trans hn, hread.trans hm, fun hge => ⟨(hfull hge).1.trans_le hm,
      (hfull hge).2.trans hm⟩⟩

def fullRun : List Call := List.replicate 3 (.allocate 0 0 (2 ^ 18))

def lateRun : List Call := [.allocate (2 ^ 46 - 1) 0 1, .allocate (2 ^ 46) 0 1]

def fullServed : List Call := List.replicate 3 (.getTS 0 0 (2 ^ 18) true)

def lateServed : List Call := [.getTS (2 ^ 46 - 1) 0 1 true, .reset, .getTS (2 ^ 46) 0 1 true]

theorem full_not_increasing (before : List Range) :
    ¬ Increasing (before ++ [⟨2, 2 ^ 18, 2 ^ 18⟩, ⟨3, 2 ^ 18, 2 ^ 18⟩]) := by
  have hlast : toUint64 2 (2 ^ 18 - 0) = toUint64 3 (2 ^ 18 - 0) := by decide
  exact not_increasing before [] [] ⟨0, le_rfl, by decide, rfl⟩ ⟨0, le_rfl, by decide, rfl⟩
    hlast.ge

theorem late_not_increasing : ¬ Increasing [⟨2 ^ 46 - 1, 1, 1⟩, ⟨2 ^ 46, 1, 1⟩] := by
  have hlast : toUint64 (2 ^ 46) (1 - 0) ≤ toUint64 (2 ^ 46 - 1) (1 - 0) := by decide
  exact not_increasing [] [] [] ⟨0, le_rfl, by decide, rfl⟩ ⟨0, le_rfl, by decide, rfl⟩ hlast

theorem small_of_increasing (hn : 1 ≤ n) (hm : 3 ≤ m) {ranges : State → List Range}
    {before : List Range} {full late : List Call}
    (hfull : (system.runWhen (Within (2 ^ 18) 3) start full).map ranges =
      some (before ++ [⟨2, 2 ^ 18, 2 ^ 18⟩, ⟨3, 2 ^ 18, 2 ^ 18⟩]))
    (hlate : (system.runWhen (Within 1 (2 ^ 46)) start late).map ranges =
      some [⟨2 ^ 46 - 1, 1, 1⟩, ⟨2 ^ 46, 1, 1⟩])
    (h : ∀ s, system.ReachableWhen (Within n m) s → Increasing (ranges s)) :
    n < 2 ^ 18 ∧ m < 2 ^ 46 := by
  obtain ⟨s, hs, hranges⟩ := map_eq_some_iff.mp hfull
  obtain ⟨s', hs', hranges'⟩ := map_eq_some_iff.mp hlate
  have hreach := StepSystem.reachableWhen_of_run .start hs
  have hreach' := StepSystem.reachableWhen_of_run .start hs'
  constructor
  · by_contra hge
    have hinc := h s (hreach.mono (Within.mono (not_lt.mp hge) hm))
    rw [hranges] at hinc
    exact full_not_increasing before hinc
  · by_contra hge
    have hinc := h s' (hreach'.mono (Within.mono hn (not_lt.mp hge)))
    rw [hranges'] at hinc
    exact late_not_increasing hinc

/-- **Ranges increase, also when the clock goes back, exactly for counts below `2 ^ 18` and
clocks below `2 ^ 46`**, those of the allocator as well as those of the buffer. -/
theorem increasing_iff {n m : ℤ} (hn : 1 ≤ n) (hm : 3 ≤ m) :
    ((∀ s, system.ReachableWhen (Within n m) s → Increasing s.allocated) ↔
      n < 2 ^ 18 ∧ m < 2 ^ 46) ∧ ((∀ s, system.ReachableWhen (Within n m) s → Increasing s.served) ↔
      n < 2 ^ 18 ∧ m < 2 ^ 46) := by
  have hfull : (system.runWhen (Within (2 ^ 18) 3) start fullRun).map allocated =
      some ([⟨1, 2 ^ 18, 2 ^ 18⟩] ++ [⟨2, 2 ^ 18, 2 ^ 18⟩, ⟨3, 2 ^ 18, 2 ^ 18⟩]) := by decide
  have hlate : (system.runWhen (Within 1 (2 ^ 46)) start lateRun).map allocated =
      some [⟨2 ^ 46 - 1, 1, 1⟩, ⟨2 ^ 46, 1, 1⟩] := by decide
  have hfull' : (system.runWhen (Within (2 ^ 18) 3) start fullServed).map served =
      some ([⟨1, 2 ^ 18, 2 ^ 18⟩] ++ [⟨2, 2 ^ 18, 2 ^ 18⟩, ⟨3, 2 ^ 18, 2 ^ 18⟩]) := by decide
  have hlate' : (system.runWhen (Within 1 (2 ^ 46)) start lateServed).map served =
      some [⟨2 ^ 46 - 1, 1, 1⟩, ⟨2 ^ 46, 1, 1⟩] := by decide
  constructor
  · exact ⟨small_of_increasing hn hm hfull hlate, fun h s hs => (increasing_of_small h.1 h.2 hs).1⟩
  · exact ⟨small_of_increasing hn hm hfull' hlate',
      fun h s hs => (increasing_of_small h.1 h.2 hs).2⟩

theorem increasing_thousand : (1000 < 2 ^ 18 ∧ 2 ^ 46 - 1 < 2 ^ 46) ∧
      ∀ s, system.ReachableWhen (Within 1000 (2 ^ 46 - 1)) s → Increasing s.allocated :=
  ⟨by decide, (increasing_iff (by decide) (by decide)).1.mpr (by decide)⟩

/-- **Three calls for `2 ^ 18` timestamps**: the second and the third both get the timestamp
`3 * 2 ^ 18`, from the allocator and from the buffer. -/
theorem ranges_overlap : (∃ s, system.runFrom start fullRun = some s ∧
      s.allocated = [⟨1, 2 ^ 18, 2 ^ 18⟩, ⟨2, 2 ^ 18, 2 ^ 18⟩, ⟨3, 2 ^ 18, 2 ^ 18⟩] ∧
      ¬ Increasing s.allocated) ∧ (∃ s, system.runFrom start fullServed = some s ∧
      s.served = [⟨1, 2 ^ 18, 2 ^ 18⟩, ⟨2, 2 ^ 18, 2 ^ 18⟩, ⟨3, 2 ^ 18, 2 ^ 18⟩] ∧
      ¬ Increasing s.served) ∧
    (⟨2, 2 ^ 18, 2 ^ 18⟩ : Range).has (3 * 2 ^ 18) ∧ (⟨3, 2 ^ 18, 2 ^ 18⟩ : Range).has (3 * 2 ^ 18) := by
  have hnot := full_not_increasing [⟨1, 2 ^ 18, 2 ^ 18⟩]
  exact ⟨⟨_, rfl, rfl, hnot⟩, ⟨_, rfl, rfl, hnot⟩, ⟨0, le_rfl, by decide, by decide⟩,
    ⟨0, le_rfl, by decide, by decide⟩⟩

end TsoRanges
