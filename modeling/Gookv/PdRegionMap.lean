/-
PD's region map under reports in any order: `PutRegion` and `GetRegionByKey` of
`internal/pd/server.go`.

Stores report the regions of a history, in any order and any number of times; PD keeps one for
each ID.  `regionMap_history` has when the map stays unambiguous, and `regionMap_childFirst` a
report that makes it ambiguous.
-/
import Gookv.PdMetadata

namespace Metadata

open Txntypes Metapb Codec List Option StepSystem

namespace MetadataStore

variable {m m' : MetadataStore} {current all : Set Region} {parent : Region → Region → Prop}
  {region : Region} {p : Region × Option Peer}

def reports : StepSystem MetadataStore (Region × Option Peer) where
  start := empty
  step m p := some (m.putRegion (some p.1) p.2)

def Stored (all : Set Region) (m : MetadataStore) : Prop :=
  ∀ id r, m.regions.get id = some r → r.id = id ∧ r ∈ all

theorem stored_of_put (h : Stored all m) (hregion : region ∈ all)
    (leader : Option Peer) : Stored all (m.putRegion (some region) leader) := by
  intro id r hr
  rw [get_putRegion] at hr
  split at hr
  · rename_i hid
    rw [some_inj] at hr
    subst hr
    exact ⟨hid.1.symm, hregion⟩
  · exact h id r hr

theorem stored_of_run {puts : List (Region × Option Peer)}
    (h : Stored all m) (hputs : ∀ p ∈ puts, p.1 ∈ all)
    (hrun : reports.runFrom m puts = some m') : Stored all m' := by
  induction puts generalizing m with
  | nil =>
    rw [runFrom, runWhen, some_inj] at hrun
    exact hrun ▸ h
  | cons p puts ih =>
    rw [runFrom, runWhen, if_pos trivial] at hrun
    exact ih (stored_of_put h (hputs p (mem_cons_self ..)) p.2)
      (fun q hq => hputs q (mem_cons_of_mem _ hq)) hrun

def EpochsKept (m m' : MetadataStore) : Prop :=
  ∀ id r, m.regions.get id = some r →
    ∃ r', m'.regions.get id = some r' ∧ r.version ≤ r'.version ∧ r.confVer ≤ r'.confVer

theorem epochsKept_of_put (hhistory : History current all parent) (h : Stored all m)
    (hregion : region ∈ all) (leader : Option Peer) :
    EpochsKept m (m.putRegion (some region) leader) := by
  intro id r hr
  rw [get_putRegion]
  by_cases hput : id = region.id ∧ ¬ m.discards region
  · -- the stored region was replaced, so the report is not stale
    rw [if_pos hput]
    obtain ⟨rfl, hnot⟩ := hput
    have hfresh : ¬ (region.version < r.version ∨ region.confVer < r.confVer) := by
      intro hlt
      exact hnot ⟨r, hr, hhistory.epoch_ne_none (h _ r hr).2,
        hhistory.epoch_ne_none hregion, hlt⟩
    rw [not_or, not_lt, not_lt] at hfresh
    exact ⟨region, rfl, hfresh⟩
  · rw [if_neg hput]
    exact ⟨r, hr, le_rfl, le_rfl⟩

/-! ### Overlaps -/

def Overlap (r r' : Region) : Prop :=
  ∃ key, r.contains (encodeBytes key) ∧ r'.contains (encodeBytes key)

def Unambiguous (m : MetadataStore) : Prop :=
  ∀ id id' r r', m.regions.get id = some r → m.regions.get id' = some r' → Overlap r r' → id = id'

def OrderFree (m : MetadataStore) : Prop :=
  ∀ key, ∀ order order' : List (ℕ × Region), order.Perm m.regions.toList →
    order'.Perm m.regions.toList → m.getRegionByKey order key = m.getRegionByKey order' key

theorem lookup_of_unambiguous (h : Unambiguous m) : OrderFree m := by
  intro key order order' hperm hperm'
  -- the entry that is found is one with the key, and there is no other one
  have hunique : ∀ p ∈ m.regions.toList, ∀ p' ∈ m.regions.toList,
      p.2.contains (encodeBytes key) → p'.2.contains (encodeBytes key) → p = p' := by
    rintro ⟨id, r⟩ hp ⟨id', r'⟩ hp' hk hk'
    rw [Table.mem_toList] at hp hp'
    obtain rfl := h id id' r r' hp hp' ⟨key, hk, hk'⟩
    obtain rfl := some.inj (hp.symm.trans hp')
    rfl
  have hfind : order.find? (fun p => p.2.contains (encodeBytes key)) =
      order'.find? fun p => p.2.contains (encodeBytes key) := by
    ext p
    have hsame : ∀ l : List (ℕ × Region), l.Perm m.regions.toList →
        (l.find? (fun p => p.2.contains (encodeBytes key)) = some p ↔
          p ∈ m.regions.toList ∧ p.2.contains (encodeBytes key)) := by
      intro l hl
      constructor
      · intro hp
        exact ⟨hl.mem_iff.mp (mem_of_find?_eq_some hp), by
          simpa using find?_some hp⟩
      · rintro ⟨hp, hk⟩
        cases hfound : l.find? (fun p => p.2.contains (encodeBytes key)) with
        | none =>
          rw [find?_eq_none] at hfound
          exact absurd (by simpa using hk) (hfound p (hl.mem_iff.mpr hp))
        | some q =>
          have hq := hl.mem_iff.mp (mem_of_find?_eq_some hfound)
          have hkq : q.2.contains (encodeBytes key) := by simpa using find?_some hfound
          rw [hunique q hq p hp hkq hk]
    rw [hsame order hperm, hsame order' hperm']
  rw [getRegionByKey, getRegionByKey, hfind]

structure Clean (m : MetadataStore) : Prop where
  unambiguous : Unambiguous m
  orderFree : OrderFree m

def Apart (m : MetadataStore) (p : Region × Option Peer) : Prop :=
  ¬ m.discards p.1 → ∀ id r, m.regions.get id = some r → id ≠ p.1.id → ¬ Overlap p.1 r

theorem overlap_comm {r r' : Region} (h : Overlap r r') : Overlap r' r := by
  obtain ⟨key, hr, hr'⟩ := h
  exact ⟨key, hr', hr⟩

theorem unambiguous_of_apart (h : Unambiguous m) (hapart : Apart m p) :
    Unambiguous (m.putRegion (some p.1) p.2) := by
  intro id id' r r' hr hr' hoverlap
  rw [get_putRegion] at hr hr'
  by_cases hdiscard : m.discards p.1
  · simp only [hdiscard, not_true, and_false, if_false] at hr hr'
    exact h id id' r r' hr hr' hoverlap
  · simp only [hdiscard, not_false_eq_true, and_true] at hr hr'
    split at hr <;> split at hr'
    · rename_i hid hid'
      exact hid.trans hid'.symm
    · rename_i hid hid'
      rw [some_inj] at hr
      subst hr
      exact absurd hoverlap (hapart hdiscard id' r' hr' hid')
    · rename_i hid hid'
      rw [some_inj] at hr'
      subst hr'
      exact absurd (overlap_comm hoverlap) (hapart hdiscard id r hr hid)
    · exact h id id' r r' hr hr' hoverlap

theorem not_unambiguous_of_not_apart (hapart : ¬ Apart m p) :
    ¬ Unambiguous (m.putRegion (some p.1) p.2) := by
  simp only [Apart, not_forall, not_not] at hapart
  obtain ⟨hdiscard, id, r, hr, hid, hoverlap⟩ := hapart
  intro h
  refine hid (h id p.1.id r p.1 ?_ ?_ (overlap_comm hoverlap))
  · rw [get_putRegion, if_neg fun hput => hid hput.1]
    exact hr
  · rw [get_putRegion, if_pos ⟨rfl, hdiscard⟩]

theorem unambiguous_iff (puts : List (Region × Option Peer)) :
    reports.AlwaysAfter Clean reports.start puts ↔ reports.Meets Apart reports.start puts := by
  refine alwaysAfter_iff (I := Unambiguous) ?_ ?_ ?_ puts
  · rintro m m' p h hapart hstep
    cases hstep
    have hnext := unambiguous_of_apart h hapart
    exact ⟨hnext, hnext, lookup_of_unambiguous hnext⟩
  · rintro m m' p - hapart hstep hclean
    cases hstep
    exact not_unambiguous_of_not_apart hapart hclean.unambiguous
  · intro id id' r r' hr
    cases hr

/-! ### Over the history -/

def HasKey (r : Region) : Prop := ∃ key, r.contains (encodeBytes key)

/-- No report is accepted while a region that it came from, or that came from it, is stored under
another ID (and both have a key). -/
def Clear (parent : Region → Region → Prop) (m : MetadataStore) (p : Region × Option Peer) :
    Prop :=
  ¬ m.discards p.1 → ∀ id r, m.regions.get id = some r → id ≠ p.1.id → HasKey p.1 → HasKey r →
    ¬ (History.Descends parent p.1 r ∨ History.Descends parent r p.1)

theorem overlap_iff {r r' : Region} (h : History current all parent) (hr : r ∈ all)
    (hr' : r' ∈ all) : Overlap r r' ↔ HasKey r ∧ HasKey r' ∧
      (History.Descends parent r r' ∨ History.Descends parent r' r) := by
  constructor
  · rintro ⟨key, hk, hk'⟩
    exact ⟨⟨key, hk⟩, ⟨key, hk'⟩, h.related_of_overlap hr hr' hk hk'⟩
  · rintro ⟨⟨key, hk⟩, ⟨key', hk'⟩, hd | hd⟩
    · exact ⟨key', h.contains_of_descends hd hk', hk'⟩
    · exact ⟨key, hk, h.contains_of_descends hd hk⟩

theorem meets_apart_iff (hhistory : History current all parent)
    {puts : List (Region × Option Peer)} (hputs : ∀ p ∈ puts, p.1 ∈ all)
    (hm : Stored all m) : reports.Meets Apart m puts ↔ reports.Meets (Clear parent) m puts := by
  refine meets_congr (I := Stored all) ?_ (fun m p hp hm => ?_) hm
  · intro m m' p hp hm hstep
    cases hstep
    exact stored_of_put hm (hputs p hp) p.2
  · refine imp_congr_right fun _ => forall₂_congr fun id r => imp_congr_right fun hr =>
      imp_congr_right fun _ => ?_
    rw [overlap_iff hhistory (hputs p hp) (hm id r hr).2, not_and, not_and]

/-- **PD's region map**, for reports that deliver the regions of a history in any order.
The epochs never go back.  The map is unambiguous after every report iff no report is
accepted while an ancestor or a descendant of another ID is stored, and then the order of the
iteration does not matter.  A stored region that is in the way of a report is one it came from, or
one that came from it. -/
theorem regionMap_history (hhistory : History current all parent)
    (puts : List (Region × Option Peer)) (hputs : ∀ p ∈ puts, p.1 ∈ all) :
    (∀ m, reports.runFrom reports.start puts = some m → ∀ region ∈ all, ∀ leader,
      EpochsKept m (m.putRegion (some region) leader)) ∧
    (reports.AlwaysAfter Clean reports.start puts ↔
      reports.Meets (Clear parent) reports.start puts) ∧
    (∀ m, reports.runFrom reports.start puts = some m → ∀ region ∈ all, ∀ id r,
      m.regions.get id = some r → Overlap region r →
        History.Descends parent region r ∨ History.Descends parent r region) := by
  have hstart : Stored all reports.start := fun id r hr => by cases hr
  refine ⟨?_, (unambiguous_iff puts).trans (meets_apart_iff hhistory hputs hstart), ?_⟩
  · intro m hrun region hregion leader
    exact epochsKept_of_put hhistory (stored_of_run hstart hputs hrun) hregion leader
  · rintro m hrun region hregion id r hr ⟨key, hk, hk'⟩
    exact hhistory.related_of_overlap hregion (stored_of_run hstart hputs hrun id r hr).2 hk hk'

def whole : Region := { id := 1, regionEpoch := some ⟨1, 1⟩ }

def leftHalf : Region := { id := 1, endKey := encodeBytes [109], regionEpoch := some ⟨1, 2⟩ }

def rightHalf : Region := { id := 2, startKey := encodeBytes [109], regionEpoch := some ⟨1, 2⟩ }

theorem splitsInto_halves : SplitsInto whole leftHalf rightHalf where
  start_lt := by decide
  lt_end := .inl rfl
  left_start := rfl
  right_start := rfl
  right_end := rfl

theorem history_halves :
    History ({whole} \ {whole} ∪ {leftHalf, rightHalf}) ({whole} ∪ {leftHalf, rightHalf})
      (fun a b => False ∨ a = whole ∧ (b = leftHalf ∨ b = rightHalf)) := by
  refine .split (.start {whole} ?_ ?_ ?_) whole leftHalf rightHalf rfl (.inl splitsInto_halves)
    rfl ?_ ⟨by decide, by decide, by decide⟩ ⟨by decide, by decide, by decide⟩ (by decide)
  · rintro r rfl
    decide
  · rintro r rfl r' rfl -
    rfl
  · rintro r rfl r' rfl - - -
    rfl
  · rintro a rfl
    decide

theorem regionMap_history_inOrder :
    (∀ p ∈ ([(whole, none), (leftHalf, none), (rightHalf, none)] : List (Region × Option Peer)),
      p.1 ∈ ({whole} ∪ {leftHalf, rightHalf} : Set Region)) ∧
    reports.AlwaysAfter Clean reports.start
      [(whole, none), (leftHalf, none), (rightHalf, none)] := by
  have hputs : ∀ p ∈ ([(whole, none), (leftHalf, none), (rightHalf, none)] :
      List (Region × Option Peer)), p.1 ∈ ({whole} ∪ {leftHalf, rightHalf} : Set Region) := by
    simp
  refine ⟨hputs, (regionMap_history history_halves _ hputs).2.1.mpr ?_⟩
  refine (meets_apart_iff history_halves hputs fun id r hr => by cases hr).mp ?_
  refine .cons rfl ?_ (.cons rfl ?_ (.cons rfl ?_ trivial))
  · intro _ id r hr
    cases hr
  · -- only the region of the same ID is stored
    intro _ id r hr hid
    rw [get_putRegion, if_neg fun hput => hid hput.1] at hr
    cases hr
  · intro _ id r hr _
    have hleft : r = leftHalf := by
      rw [get_putRegion, get_putRegion] at hr
      split at hr
      · exact (some.inj hr).symm
      · split at hr
        · rename_i h₁ h₂
          exact absurd ⟨h₂.1, by decide⟩ h₁
        · cases hr
    rintro ⟨key, hk, hk'⟩
    rw [hleft] at hk'
    exact splitsInto_halves.disjoint hk' hk

theorem regionMap_childFirst :
    (∀ p ∈ ([(whole, none), (rightHalf, none)] : List (Region × Option Peer)),
      p.1 ∈ ({whole} ∪ {leftHalf, rightHalf} : Set Region)) ∧
    ¬ reports.AlwaysAfter Clean reports.start [(whole, none), (rightHalf, none)] := by
  refine ⟨by simp, fun h => ?_⟩
  obtain ⟨-, h⟩ := h _ rfl
  obtain ⟨hclean, -⟩ := h _ rfl
  have hone : (1 : ℕ) = 2 := by
    refine hclean.unambiguous 1 2 whole rightHalf ?_ ?_ ⟨[110], by decide, by decide⟩
    · rw [get_putRegion, get_putRegion]
      rfl
    · rw [get_putRegion, if_pos ⟨rfl, by decide⟩]
  exact absurd hone (by decide)

end MetadataStore

end Metadata
