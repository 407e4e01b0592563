/-
Histories of regions.

Disjoint regions change by splits, where one half keeps the ID, and by membership changes.  The
regions that ever were cover the keys of the current ones (`History.tiles`), and two of them with a
key in common are related (`History.related_of_overlap`).
-/
import Gookv.Region

namespace Metapb

open Txntypes Relation

def Region.version (r : Region) : ℕ := (r.regionEpoch.map RegionEpoch.version).getD 0

def Region.confVer (r : Region) : ℕ := (r.regionEpoch.map RegionEpoch.confVer).getD 0

/-- The region `r` is cut at a key inside of it. -/
structure SplitsInto (r left right : Region) : Prop where
  start_lt : r.startKey < left.endKey
  lt_end : r.endKey = [] ∨ left.endKey < r.endKey
  left_start : left.startKey = r.startKey
  right_start : right.startKey = left.endKey
  right_end : right.endKey = r.endKey

/-- A region `after` that takes the place of the region `before` has an epoch that is not older. -/
structure Newer (before after : Region) : Prop where
  epoch : after.regionEpoch ≠ none
  version : before.version ≤ after.version
  confVer : before.confVer ≤ after.confVer

/-- The current regions, all regions, and what each came from. -/
inductive History : Set Region → Set Region → (Region → Region → Prop) → Prop
  | start (rs : Set Region) (hepoch : ∀ r ∈ rs, r.regionEpoch ≠ none)
      (hids : ∀ r ∈ rs, ∀ r' ∈ rs, r.id = r'.id → r = r')
      (hdisjoint : ∀ r ∈ rs, ∀ r' ∈ rs, ∀ key, r.contains key → r'.contains key → r = r') :
      History rs rs fun _ _ => False
  | split {current all : Set Region} {parent : Region → Region → Prop}
      (h : History current all parent) (r kept fresh : Region) (hr : r ∈ current)
      (hsplit : SplitsInto r kept fresh ∨ SplitsInto r fresh kept)
      (hid : kept.id = r.id) (hfresh : ∀ a ∈ all, a.id ≠ fresh.id)
      (hkept : Newer r kept) (hnew : Newer r fresh)
      (hversion : r.version < kept.version ∧ r.version < fresh.version) :
      History (current \ {r} ∪ {kept, fresh}) (all ∪ {kept, fresh})
        fun a b => parent a b ∨ a = r ∧ (b = kept ∨ b = fresh)
  | confChange {current all : Set Region} {parent : Region → Region → Prop}
      (h : History current all parent) (r after : Region) (hr : r ∈ current)
      (hid : after.id = r.id) (hstart : after.startKey = r.startKey)
      (hend : after.endKey = r.endKey) (hafter : Newer r after)
      (hconfVer : r.confVer < after.confVer) :
      History (current \ {r} ∪ {after}) (all ∪ {after}) fun a b => parent a b ∨ a = r ∧ b = after

open Region

theorem SplitsInto.contains_iff {left r right : Region} (h : SplitsInto r left right)
    (key : Key) : r.contains key ↔ left.contains key ∨ right.contains key := by
  have hne : left.endKey ≠ [] := by
    intro hnil
    exact List.not_lt_nil _ (hnil ▸ h.start_lt)
  rw [Region.contains_iff, Region.contains_iff, Region.contains_iff, h.left_start,
    h.right_start, h.right_end]
  constructor
  · rintro ⟨hstart, hend⟩
    rcases lt_or_ge key left.endKey with hlt | hge
    · exact .inl ⟨hstart, .inr hlt⟩
    · exact .inr ⟨hge, hend⟩
  · rintro (⟨hstart, hend⟩ | ⟨hstart, hend⟩)
    · have hlt := hend.resolve_left hne
      exact ⟨hstart, h.lt_end.imp_right fun hlt' => hlt.trans hlt'⟩
    · exact ⟨h.start_lt.le.trans hstart, hend⟩

variable {left r right : Region}

theorem SplitsInto.disjoint {key : Key} (h : SplitsInto r left right)
    (hleft : left.contains key) (hright : right.contains key) : False := by
  have hne : left.endKey ≠ [] := by
    intro hnil
    exact List.not_lt_nil _ (hnil ▸ h.start_lt)
  rw [Region.contains_iff] at hleft hright
  have hlt := hleft.2.resolve_left hne
  rw [← h.right_start] at hlt
  exact absurd hright.1 (not_le.mpr hlt)

theorem halves_contains {kept fresh : Region}
    (h : SplitsInto r kept fresh ∨ SplitsInto r fresh kept) (key : Key) :
    (r.contains key ↔ kept.contains key ∨ fresh.contains key) ∧
      ¬ (kept.contains key ∧ fresh.contains key) := by
  rcases h with h | h
  · exact ⟨h.contains_iff key, fun hk => h.disjoint hk.1 hk.2⟩
  · refine ⟨?_, fun hk => h.disjoint hk.2 hk.1⟩
    rw [h.contains_iff key, or_comm]

theorem contains_congr {r' : Region} (hstart : r'.startKey = r.startKey)
    (hend : r'.endKey = r.endKey) (key : Key) : r'.contains key ↔ r.contains key := by
  rw [contains, contains, hstart, hend]

/-! ### What holds in every history -/

namespace History

variable {current all : Set Region} {parent : Region → Region → Prop} {a b : Region}

section
variable (h : History current all parent)
include h

theorem current_subset : current ⊆ all := by
  induction h with
  | start rs => exact subset_rfl
  | @split current all parent h r kept fresh hr hsplit hid hfresh hkept hnew hversion ih =>
    exact Set.union_subset_union_left _ (Set.sdiff_subset.trans ih)
  | @confChange current all parent h r after hr hid hstart hend hafter hconfVer ih =>
    exact Set.union_subset_union_left _ (Set.sdiff_subset.trans ih)

theorem epoch_ne_none (ha : a ∈ all) : a.regionEpoch ≠ none := by
  induction h with
  | start rs hepoch => exact hepoch a ha
  | @split current all parent h r kept fresh hr hsplit hid hfresh hkept hnew hversion ih =>
    rcases ha with ha | rfl | rfl
    · exact ih ha
    · exact hkept.epoch
    · exact hnew.epoch
  | @confChange current all parent h r after hr hid hstart hend hafter hconfVer ih =>
    rcases ha with ha | rfl
    · exact ih ha
    · exact hafter.epoch

theorem ids : (∀ q ∈ current, ∀ q' ∈ current, q.id = q'.id → q = q') ∧
      ∀ a ∈ all, ∀ q ∈ current, a.id = q.id → a.version ≤ q.version ∧ a.confVer ≤ q.confVer := by
  induction h with
  | start rs hepoch hids hdisjoint =>
    refine ⟨hids, fun a ha q hq hid => ?_⟩
    rw [hids a ha q hq hid]
    exact ⟨le_rfl, le_rfl⟩
  | @split current all parent h r kept fresh hr hsplit hid hfresh hkept hnew hversion ih =>
    obtain ⟨huniq, hle⟩ := ih
    have hsub := h.current_subset
    -- the new ID is that of no other region
    have hfresh' : ∀ q, q ∈ current \ {r} ∪ {kept, fresh} → q.id = fresh.id →
        q = fresh := by
      rintro q (hq | rfl | rfl) hqid
      · exact absurd hqid (hfresh q (hsub hq.1))
      · exact absurd (hid.symm.trans hqid) (hfresh r (hsub hr))
      · rfl
    have hkept' : ∀ q, q ∈ current \ {r} ∪ {kept, fresh} → q.id = kept.id →
        q = kept := by
      rintro q (hq | rfl | rfl) hqid
      · exact absurd (huniq q hq.1 r hr (hqid.trans hid)) hq.2
      · rfl
      · exact absurd (hid.symm.trans hqid.symm) (hfresh r (hsub hr))
    constructor
    · rintro q (hq | rfl | rfl) q' hq' heq
      · rcases hq' with hq' | rfl | rfl
        · exact huniq q hq.1 q' hq'.1 heq
        · exact hkept' q (.inl hq) heq
        · exact hfresh' q (.inl hq) heq
      · exact (hkept' q' hq' heq.symm).symm
      · exact (hfresh' q' hq' heq.symm).symm
    · rintro a ha q hq heq
      rcases ha with ha | rfl | rfl
      · rcases hq with hq | rfl | rfl
        · exact hle a ha q hq.1 heq
        · obtain ⟨hv, hc⟩ := hle a ha r hr (heq.trans hid)
          exact ⟨hv.trans hkept.version, hc.trans hkept.confVer⟩
        · exact absurd heq (hfresh a ha)
      · rw [hkept' q hq heq.symm]
        exact ⟨le_rfl, le_rfl⟩
      · rw [hfresh' q hq heq.symm]
        exact ⟨le_rfl, le_rfl⟩
  | @confChange current all parent h r after hr hid hstart hend hafter hconfVer ih =>
    obtain ⟨huniq, hle⟩ := ih
    have hafter' : ∀ q, q ∈ current \ {r} ∪ {after} → q.id = after.id → q = after := by
      rintro q (hq | rfl) hqid
      · exact absurd (huniq q hq.1 r hr (hqid.trans hid)) hq.2
      · rfl
    constructor
    · rintro q (hq | rfl) q' hq' heq
      · rcases hq' with hq' | rfl
        · exact huniq q hq.1 q' hq'.1 heq
        · exact hafter' q (.inl hq) heq
      · exact (hafter' q' hq' heq.symm).symm
    · rintro a ha q hq heq
      rcases ha with ha | rfl
      · rcases hq with hq | rfl
        · exact hle a ha q hq.1 heq
        · obtain ⟨hv, hc⟩ := hle a ha r hr (heq.trans hid)
          exact ⟨hv.trans hafter.version, hc.trans hafter.confVer⟩
      · rw [hafter' q hq heq.symm]
        exact ⟨le_rfl, le_rfl⟩

theorem disjoint {key : Key} :
    ∀ q ∈ current, ∀ q' ∈ current, q.contains key → q'.contains key → q = q' := by
  induction h with
  | start rs hepoch hids hdisjoint =>
    intro q hq q' hq' hk hk'
    exact hdisjoint q hq q' hq' key hk hk'
  | @split current all parent h r kept fresh hr hsplit hid hfresh hkept hnew hversion ih =>
    obtain ⟨hhalves, hboth⟩ := halves_contains hsplit key
    -- the halves are parts of a region that was disjoint from the others
    have hnot : ∀ q ∈ current \ {r}, q.contains key → ¬ r.contains key := by
      intro q hq hk hk'
      exact hq.2 (ih q hq.1 r hr hk hk')
    rintro q (hq | rfl | rfl) q' (hq' | rfl | rfl) hk hk'
    · exact ih q hq.1 q' hq'.1 hk hk'
    · exact absurd (hhalves.mpr (.inl hk')) (hnot q hq hk)
    · exact absurd (hhalves.mpr (.inr hk')) (hnot q hq hk)
    · exact absurd (hhalves.mpr (.inl hk)) (hnot q' hq' hk')
    · rfl
    · exact absurd ⟨hk, hk'⟩ hboth
    · exact absurd (hhalves.mpr (.inr hk)) (hnot q' hq' hk')
    · exact absurd ⟨hk', hk⟩ hboth
    · rfl
  | @confChange current all parent h r after hr hid hstart hend hafter hconfVer ih =>
    have hsame := contains_congr hstart hend key
    have hnot : ∀ q ∈ current \ {r}, q.contains key → ¬ r.contains key := by
      intro q hq hk hk'
      exact hq.2 (ih q hq.1 r hr hk hk')
    rintro q (hq | rfl) q' (hq' | rfl) hk hk'
    · exact ih q hq.1 q' hq'.1 hk hk'
    · exact absurd (hsame.mp hk') (hnot q hq hk)
    · exact absurd (hsame.mp hk) (hnot q' hq' hk')
    · rfl

theorem parent_unique :
    (∀ a b, parent a b → b ∈ all) ∧ ∀ a b c, parent a c → parent b c → a = b := by
  induction h with
  | start rs => exact ⟨fun _ _ h => h.elim, fun _ _ _ h => h.elim⟩
  | @split current all parent h r kept fresh hr hsplit hid hfresh hkept hnew hversion ih =>
    obtain ⟨hmem, huniq⟩ := ih
    have hkept_new : ∀ a, ¬ parent a kept := fun a ha =>
      absurd (h.ids.2 kept (hmem a kept ha) r hr hid).1 (not_le.mpr hversion.1)
    have hfresh_new : ∀ a, ¬ parent a fresh := fun a ha =>
      hfresh fresh (hmem a fresh ha) rfl
    refine ⟨?_, ?_⟩
    · rintro a b (hab | ⟨-, rfl | rfl⟩)
      · exact .inl (hmem a b hab)
      · exact .inr (.inl rfl)
      · exact .inr (.inr rfl)
    · rintro a b c (hac | ⟨rfl, hac⟩) (hbc | ⟨rfl, hbc⟩)
      · exact huniq a b c hac hbc
      · rcases hbc with rfl | rfl
        · exact absurd hac (hkept_new a)
        · exact absurd hac (hfresh_new a)
      · rcases hac with rfl | rfl
        · exact absurd hbc (hkept_new b)
        · exact absurd hbc (hfresh_new b)
      · rfl
  | @confChange current all parent h r after hr hid hstart hend hafter hconfVer ih =>
    obtain ⟨hmem, huniq⟩ := ih
    have hafter_new : ∀ a, ¬ parent a after := fun a ha =>
      absurd (h.ids.2 after (hmem a after ha) r hr hid).2 (not_le.mpr hconfVer)
    refine ⟨?_, ?_⟩
    · rintro a b (hab | ⟨-, rfl⟩)
      · exact .inl (hmem a b hab)
      · exact .inr rfl
    · rintro a b c (hac | ⟨rfl, rfl⟩) (hbc | ⟨rfl, hbc⟩)
      · exact huniq a b c hac hbc
      · subst hbc
        exact absurd hac (hafter_new a)
      · exact absurd hbc (hafter_new b)
      · rfl

end

/-- `b` descends from `a`, or is `a`. -/
def Descends (parent : Region → Region → Prop) (a b : Region) : Prop :=
  Relation.ReflTransGen parent a b

theorem Descends.mono {parent' : Region → Region → Prop}
    (h : ∀ a b, parent a b → parent' a b) (hab : Descends parent a b) :
    Descends parent' a b :=
  ReflTransGen.mono h _ _ hab

theorem tiles (h : History current all parent) (ha : a ∈ all) {key : Key}
    (hkey : a.contains key) : ∃ q ∈ current, q.contains key ∧ Descends parent a q := by
  induction h generalizing a with
  | start rs => exact ⟨a, ha, hkey, .refl⟩
  | @split current all parent h r kept fresh hr hsplit hid hfresh hkept hnew hversion ih =>
    obtain ⟨hhalves, -⟩ := halves_contains hsplit key
    rcases ha with ha | rfl | rfl
    · obtain ⟨q, hq, hk, hdesc⟩ := ih ha hkey
      have hdesc' : Descends (fun a b => parent a b ∨ a = r ∧ (b = kept ∨ b = fresh)) a q :=
        Descends.mono (fun _ _ => .inl) hdesc
      by_cases hqr : q = r
      · -- the region that was split: the half with the key descends from it
        subst hqr
        rcases hhalves.mp hk with hk | hk
        · exact ⟨kept, .inr (.inl rfl), hk, hdesc'.tail (.inr ⟨rfl, .inl rfl⟩)⟩
        · exact ⟨fresh, .inr (.inr rfl), hk, hdesc'.tail (.inr ⟨rfl, .inr rfl⟩)⟩
      · exact ⟨q, .inl ⟨hq, hqr⟩, hk, hdesc'⟩
    · exact ⟨a, .inr (.inl rfl), hkey, .refl⟩
    · exact ⟨a, .inr (.inr rfl), hkey, .refl⟩
  | @confChange current all parent h r after hr hid hstart hend hafter hconfVer ih =>
    rcases ha with ha | rfl
    · obtain ⟨q, hq, hk, hdesc⟩ := ih ha hkey
      have hdesc' : Descends (fun a b => parent a b ∨ a = r ∧ b = after) a q :=
        Descends.mono (fun _ _ => .inl) hdesc
      by_cases hqr : q = r
      · subst hqr
        exact ⟨after, .inr rfl, (contains_congr hstart hend key).mpr hk,
          hdesc'.tail (.inr ⟨rfl, rfl⟩)⟩
      · exact ⟨q, .inl ⟨hq, hqr⟩, hk, hdesc'⟩
    · exact ⟨a, .inr rfl, hkey, .refl⟩

theorem contains_of_parent {key : Key} (h : History current all parent) (hp : parent a b)
    (hk : b.contains key) : a.contains key := by
  induction h with
  | start rs => cases hp
  | split h r kept fresh hr hsplit hid hfresh hkept hnew hversion ih =>
    have hhalves := (halves_contains hsplit key).1
    rcases hp with hp | ⟨rfl, rfl | rfl⟩
    · exact ih hp
    · exact hhalves.mpr (.inl hk)
    · exact hhalves.mpr (.inr hk)
  | confChange h r after hr hid hstart hend hafter hconfVer ih =>
    rcases hp with hp | ⟨rfl, rfl⟩
    · exact ih hp
    · exact (contains_congr hstart hend key).mp hk

/-- A region has all keys of those that came from it. -/
theorem contains_of_descends {key : Key} (h : History current all parent)
    (hd : Descends parent a b) (hk : b.contains key) : a.contains key := by
  induction hd with
  | refl => exact hk
  | tail _ hp ih => exact ih (h.contains_of_parent hp hk)

theorem related_of_overlap {key : Key} (h : History current all parent) (ha : a ∈ all)
    (hb : b ∈ all) (hka : a.contains key) (hkb : b.contains key) :
    Descends parent a b ∨ Descends parent b a := by
  obtain ⟨q, hq, hkq, haq⟩ := h.tiles ha hka
  obtain ⟨q', hq', hkq', hbq'⟩ := h.tiles hb hkb
  obtain rfl := h.disjoint q hq q' hq' hkq hkq'
  -- the regions that one region descends from are linearly ordered
  have hunique : Relator.RightUnique (Function.swap parent) :=
    fun c a b hac hbc => h.parent_unique.2 a b c hac hbc
  have haq' : ReflTransGen (Function.swap parent) q a :=
    reflTransGen_swap.mpr haq
  have hbq'' : ReflTransGen (Function.swap parent) q b :=
    reflTransGen_swap.mpr hbq'
  rcases ReflTransGen.total_of_right_unique hunique haq' hbq'' with hab | hba
  · exact .inr (reflTransGen_swap.mp hab)
  · exact .inl (reflTransGen_swap.mp hba)

end History

end Metapb
