/-
Layouts: regions with encoded boundaries that partition the user keys.

A user key belongs to the region that contains its encoding.  A client walks over the
regions of a range from one end key to the next.
-/
import Gookv.SnapshotData
import Gookv.Routing

namespace Routing

open Txntypes StoreRestart Metapb Codec Raftstore List Region

structure Layout where
  regions : List Region
  startKey_encoded : ∀ r ∈ regions, r.startKey = [] ∨ ∃ b, r.startKey = encodeBytes b
  endKey_encoded : ∀ r ∈ regions, r.endKey = [] ∨ ∃ b, r.endKey = encodeBytes b
  nonempty : ∀ r ∈ regions, ∃ k, r.contains (encodeBytes k)
  owner : ∀ k : Key, ∃! r, r ∈ regions ∧ r.contains (encodeBytes k)

namespace Layout

variable (layout : Layout) {r r' : Region} {k : Key}

theorem contains_of_le {a : Key} (h : r.contains (encodeBytes k))
    (hstart : r.startKey ≤ encodeBytes a)
    (hle : a ≤ k) : r.contains (encodeBytes a) := by
  rw [contains_iff] at h ⊢
  exact ⟨hstart, h.2.imp_right (lt_of_le_of_lt (encodeBytes_le.mpr hle))⟩

theorem eq_of_inRange {key : Key} (hr : r ∈ layout.regions) (hr' : r' ∈ layout.regions)
    (hkey : InRange r.startKey r.endKey key) (hkey' : InRange r'.startKey r'.endKey key) :
    r = r' := by
  -- the region that starts first has a key of the other one
  have hfirst : ∀ {x y : Region}, x ∈ layout.regions → y ∈ layout.regions →
      x.startKey ≤ y.startKey → y.startKey ≤ key → (x.endKey = [] ∨ key < x.endKey) → x = y := by
    intro x y hx hy hle hstart hend
    obtain ⟨b, hb⟩ := layout.nonempty y hy
    rcases layout.startKey_encoded y hy with hnil | ⟨c, hc⟩
    · obtain ⟨a, ha⟩ := layout.nonempty x hx
      have hxnil : x.startKey = [] := le_antisymm (hnil ▸ hle) (not_lt.mp (not_lt_nil _))
      have hany : ∀ (z : Region), z.startKey = [] → ∀ k, z.startKey ≤ k := by
        intro z hz k
        rw [hz]
        exact not_lt.mp (not_lt_nil k)
      rcases le_total a b with hab | hab
      · exact (layout.owner a).unique ⟨hx, ha⟩ ⟨hy, contains_of_le hb (hany y hnil _) hab⟩
      · exact (layout.owner b).unique ⟨hx, contains_of_le ha (hany x hxnil _) hab⟩ ⟨hy, hb⟩
    · have hcb : c ≤ b := by
        have := (contains_iff.mp hb).1
        rwa [hc, encodeBytes_le] at this
      have hyc : y.contains (encodeBytes c) := contains_of_le hb hc.le hcb
      have hxc : x.contains (encodeBytes c) := by
        rw [contains_iff, ← hc]
        exact ⟨hle, hend.imp_right (lt_of_le_of_lt hstart)⟩
      exact (layout.owner c).unique ⟨hx, hxc⟩ ⟨hy, hyc⟩
  rcases le_total r.startKey r'.startKey with hle | hle
  · exact hfirst hr hr' hle hkey'.1 hkey.2
  · exact (hfirst hr' hr hle hkey.1 hkey'.2).symm

theorem lt_boundary (hr' : r' ∈ layout.regions) (heq : r'.endKey = r.endKey)
    (hk : r.contains (encodeBytes k)) (hend : r.endKey ≠ []) : k < r.endKey := by
  obtain ⟨e, he⟩ := (layout.endKey_encoded r' hr').resolve_left (heq ▸ hend)
  have hlt := (contains_iff.mp hk).2.resolve_left hend
  rw [← heq, he, encodeBytes_lt] at hlt
  rw [← heq, he]
  exact lt_of_lt_of_le hlt (self_le_encodeBytes e)

theorem lt_endKey (hr : r ∈ layout.regions) (hk : r.contains (encodeBytes k))
    (hend : r.endKey ≠ []) : k < r.endKey :=
  layout.lt_boundary hr rfl hk hend

/-! ### Walking over the regions -/

def twoRegions (b : Key) (hb : [] < b) : Layout where
  regions := (Routing.twoRegions b).regions
  startKey_encoded := (Routing.twoRegions b).startKey_encoded
  endKey_encoded := (Routing.twoRegions b).endKey_encoded
  nonempty := by
    intro r hr
    rcases List.mem_pair.mp hr with rfl | rfl
    · exact ⟨[], (leftRegion_contains b []).mpr hb⟩
    · exact ⟨b, (rightRegion_contains b b).mpr le_rfl⟩
  owner := (Routing.twoRegions b).owner

end Layout

end Routing
