/-
Where raw records lie: the ranges of regions and the keys of the engine.
-/
import Gookv.Layout

namespace RawPlacement

open Txntypes StoreRestart Metapb Codec Raftstore
open Routing (Layout leftRegion rightRegion)

def keyNotInRegion (region : Region) (key : Key) : Bool :=
  let encodedKey := encodeBytes key
  (!region.startKey.isEmpty && encodedKey < region.startKey) ||
    (!region.endKey.isEmpty && !(encodedKey < region.endKey))

theorem keyNotInRegion_eq_false {region : Region} {key : Key} :
    keyNotInRegion region key = false ↔ region.contains (encodeBytes key) := by
  simp [keyNotInRegion, Region.contains]

structure MovesWith (layout : Layout) (r : Region) (cf : CF) (key : Key) : Prop where
  sent : ∀ source value, Rocks.get source cf key = some value →
    (key, value) ∈ scanned source r.startKey r.endKey cf
  cleared : LastWrite (Modify.writeAt cf key) (clearing r.startKey r.endKey) = some none
  notSent : ∀ r' ∈ layout.regions, r' ≠ r → ∀ source value,
    (key, value) ∉ scanned source r'.startKey r'.endKey cf
  notCleared : ∀ r' ∈ layout.regions, r' ≠ r →
    LastWrite (Modify.writeAt cf key) (clearing r'.startKey r'.endKey) = none

/-- **A raw record moves with its region exactly when its key is not before the start key
of the region, which has an end.** -/
theorem movesWith_iff (layout : Layout) {r : Region} {k : Key} (hr : r ∈ layout.regions)
    (hk : keyNotInRegion r k = false) {cf : CF} (hcf : cf ∈ dataCFs) :
    MovesWith layout r cf k ↔ r.startKey ≤ k ∧ r.endKey ≠ [] := by
  have hcontains := keyNotInRegion_eq_false.mp hk
  constructor
  · intro h
    have hcleared := h.cleared
    rw [lastWrite_clearing hcf] at hcleared
    obtain ⟨⟨hstart, hend⟩, -⟩ := StepSystem.of_guard hcleared
    refine ⟨hstart, ?_⟩
    rintro hnil
    rw [hnil] at hend
    exact List.not_lt_nil k hend
  · rintro ⟨hstart, hend⟩
    have hlt := layout.lt_endKey hr hcontains hend
    have hin : InRange r.startKey r.endKey k := ⟨hstart, .inr hlt⟩
    have hout : ∀ r' ∈ layout.regions, r' ≠ r → ¬ InRange r'.startKey r'.endKey k := by
      intro r' hr' hne hin'
      exact hne (layout.eq_of_inRange hr' hr hin' hin)
    refine ⟨?_, ?_, ?_, ?_⟩
    · intro source value hget
      exact (mem_scanned hcf k value).mpr ⟨hget, hin⟩
    · rw [lastWrite_clearing hcf, if_pos ⟨hstart, hlt⟩]
    · intro r' hr' hne source value hmem
      exact hout r' hr' hne ((mem_scanned hcf k value).mp hmem).2
    · intro r' hr' hne
      rw [lastWrite_clearing hcf, if_neg]
      rintro ⟨hlo, hhi⟩
      exact hout r' hr' hne ⟨hlo, .inr hhi⟩

theorem movesWith_first_region : keyNotInRegion (leftRegion [0x6d]) [0x61] = false ∧
      MovesWith (Layout.twoRegions [0x6d] (by decide)) (leftRegion [0x6d]) .default [0x61] :=
  ⟨by decide, (movesWith_iff (Layout.twoRegions [0x6d] (by decide)) List.mem_cons_self (by decide)
    (by decide)).mpr (by decide)⟩

/-- **The boundary key is left behind**: a request for `m` goes to the region that starts at
`m`, whose snapshots do not have it; those of the region before it do. -/
theorem boundary_key_left_behind : keyNotInRegion (rightRegion [0x6d]) [0x6d] = false ∧
      ¬ MovesWith (Layout.twoRegions [0x6d] (by decide)) (rightRegion [0x6d]) .default [0x6d] ∧
      ∀ source value, Rocks.get source .default [0x6d] = some value →
        ([0x6d], value) ∉ scanned source (rightRegion [0x6d]).startKey
          (rightRegion [0x6d]).endKey .default ∧
        ([0x6d], value) ∈ scanned source (leftRegion [0x6d]).startKey
          (leftRegion [0x6d]).endKey .default := by
  have hout : ¬ InRange (rightRegion [0x6d]).startKey (rightRegion [0x6d]).endKey [0x6d] := by
    decide
  refine ⟨by decide, ?_, ?_⟩
  · intro h
    have hcleared := h.cleared
    revert hcleared
    decide
  · intro source value hget
    rw [mem_scanned (by decide), mem_scanned (by decide)]
    exact ⟨fun h => hout h.2, hget, by decide⟩

end RawPlacement
