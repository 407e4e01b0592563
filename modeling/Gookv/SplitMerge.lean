/-
Splitting a region and merging it back: `ExecBatchSplit` of
`internal/raftstore/split/checker.go` and `ExecCommitMerge` of `internal/raftstore/merge.go`.
-/
import Gookv.Pieces
import Gookv.RegionHistory

namespace Metapb

open Txntypes

theorem Region.version_eq (r : Region) : r.version = (r.regionEpoch.getD {}).version := by
  rw [Region.version]
  cases r.regionEpoch <;> rfl

def Region.stores (r : Region) : List ℕ := r.peers.map Peer.storeId

def RegionEpoch.wrap (e : RegionEpoch) : RegionEpoch := { e with version := e.version % 2 ^ 64 }

def Region.wrap (r : Region) : Region := { r with regionEpoch := r.regionEpoch.map RegionEpoch.wrap }

def Region.range (r : Region) : Key × WithTop Key :=
  (r.startKey, if r.endKey = [] then ⊤ else ↑r.endKey)

theorem Region.contains_iff_mem_range {r : Region} {key : Key} :
    r.contains key ↔ Pieces.Mem key r.range := by
  rw [Region.contains_iff, Pieces.Mem, Region.range]
  by_cases hend : r.endKey = []
  · simp [hend]
  · simp [hend]

end Metapb

namespace Raftstore

namespace SplitMerge

open Txntypes Metapb

def execBatchSplit (region : Region) (splitKeys : List Key) (newRegionIDs : List ℕ)
    (newPeerIDSets : List (List ℕ)) : Except SplitError SplitRegionResult :=
  (Raftstore.execBatchSplit region splitKeys newRegionIDs newPeerIDSets).map fun result =>
    ⟨result.derived.wrap, result.regions.map Region.wrap⟩

inductive MergeError
  | notAdjacent (source target : Region)
  deriving DecidableEq

def execCommitMerge (target source : Region) : Except MergeError Region :=
  let epoch := target.regionEpoch.getD {}
  let epoch : RegionEpoch :=
    { epoch with version :=
        (if target.version < source.version then source.version + 1 else target.version + 1) %
          2 ^ 64 }
  if source.startKey ≠ [] ∧ target.endKey = source.startKey then
    .ok { target with endKey := source.endKey, regionEpoch := some epoch }
  else if source.endKey ≠ [] ∧ target.startKey = source.endKey then
    .ok { target with startKey := source.startKey, regionEpoch := some epoch }
  else .error (.notAdjacent source target)

def mergeAll (derived : Region) : List Region → Except MergeError Region
  | [] => .ok derived
  | source :: regions =>
    match execCommitMerge derived source with
    | .error e => .error e
    | .ok merged => mergeAll merged regions

/-! ### What a split does -/

def newRegions (region : Region) (epoch : RegionEpoch) :
    List Key → List ℕ → List (List ℕ) → List Region
  | [], _, _ => []
  | key :: keys, ids, sets =>
    { id := ids.headD 0
      regionEpoch := some epoch
      startKey := key
      endKey := keys.headD region.endKey
      peers := newRegionPeers region (sets.headD []) } ::
      newRegions region epoch keys ids.tail sets.tail

def splitEpoch (region : Region) (n : ℕ) : RegionEpoch :=
  { region.regionEpoch.getD {} with version := (region.version + n) % 2 ^ 64 }

section

variable {region : Region} {keys : List Key} {ids : List ℕ} {sets : List (List ℕ)}
  {result : SplitRegionResult}

theorem getElem?_newRegions (epoch : RegionEpoch) (i : ℕ) :
    (newRegions region epoch keys ids sets)[i]? = keys[i]?.map fun key =>
      { id := ids.getD i 0
        regionEpoch := some epoch
        startKey := key
        endKey := (keys[i + 1]?).getD region.endKey
        peers := newRegionPeers region (sets.getD i []) } := by
  induction keys generalizing ids sets i with
  | nil => simp [newRegions]
  | cons key keys ih =>
    cases i with
    | zero =>
      cases ids <;> cases sets <;> cases keys <;> rfl
    | succ i =>
      rw [newRegions, List.getElem?_cons_succ, List.getElem?_cons_succ, ih]
      cases ids <;> cases sets <;> simp

theorem execBatchSplit_ok (h : execBatchSplit region keys ids sets = .ok result) :
    keys ≠ [] ∧ validateSplitKeys region none keys = .ok () ∧
      result.derived = { region with
        regionEpoch := some (splitEpoch region keys.length), endKey := keys.headD [] } ∧
      result.regions = newRegions region (splitEpoch region keys.length) keys ids sets := by
  unfold execBatchSplit Raftstore.execBatchSplit at h
  split_ifs at h with hnil hlen
  · simp [Except.map] at h
  · simp [Except.map] at h
  · cases hvalid : validateSplitKeys region none keys with
    | error e => simp [hvalid, Except.map] at h
    | ok u =>
      rw [hvalid] at h
      obtain rfl := Except.ok.inj h
      rw [splitEpoch, Region.version_eq]
      refine ⟨hnil, rfl, rfl, List.ext_getElem? fun i => ?_⟩
      rw [getElem?_newRegions]
      simp only [List.getElem?_map, List.getElem?_zipIdx, Nat.zero_add, Option.map_map]
      rfl

theorem ascending_of_valid {previous : Key} (hprev : (previous : WithTop Key) < region.range.2)
    (h : validateSplitKeys region (some previous) keys = .ok ()) :
    Pieces.Ascending region.range.2 previous keys := by
  induction keys generalizing previous with
  | nil => exact hprev
  | cons key keys ih =>
    rw [validateSplitKeys] at h
    split_ifs at h with hstart hend hasc
    have hkey : (key : WithTop Key) < region.range.2 := by
      rw [Region.range]
      by_cases hnil : region.endKey = []
      · simp [hnil]
      · simpa [hnil] using hend
    exact ⟨by simpa using hasc, ih hkey h⟩

theorem ascending_of_ok (hvalid : validateSplitKeys region none keys = .ok ())
    (hne : keys.headD [] ≠ []) : Pieces.Ascending region.range.2 region.startKey keys := by
  cases keys with
  | nil => exact absurd rfl hne
  | cons key keys =>
    rw [validateSplitKeys] at hvalid
    split_ifs at hvalid with hstart hend hasc
    have hkey : (key : WithTop Key) < region.range.2 := by
      rw [Region.range]
      by_cases hnil : region.endKey = []
      · simp [hnil]
      · simpa [hnil] using hend
    refine ⟨?_, ascending_of_valid hkey hvalid⟩
    by_cases hnil : region.startKey = []
    · rw [hnil]
      exact lt_of_le_of_ne (not_lt.mp (List.not_lt_nil _)) (Ne.symm hne)
    · simpa [hnil] using hstart

theorem map_range_newRegions (epoch : RegionEpoch) {key : Key} (hne : ∀ k ∈ keys, k ≠ []) :
    (newRegions region epoch (key :: keys) ids sets).map Region.range =
      Pieces.pieces region.range.2 key keys := by
  induction keys generalizing key ids sets with
  | nil => rfl
  | cons key' keys ih =>
    have hkey' : key' ≠ [] := hne key' (by simp)
    rw [newRegions, List.map_cons, ih fun k hk => hne k (List.mem_cons_of_mem _ hk)]
    simp [Region.range, hkey', Pieces.pieces]

theorem mem_newRegions_iff {epoch : RegionEpoch} {r : Region} :
    r ∈ newRegions region epoch keys ids sets ↔ ∃ i, ∃ hi : i < keys.length,
      r = { id := ids.getD i 0
            regionEpoch := some epoch
            startKey := keys[i]
            endKey := (keys[i + 1]?).getD region.endKey
            peers := newRegionPeers region (sets.getD i []) } := by
  rw [List.mem_iff_getElem?]
  constructor
  · rintro ⟨i, hi⟩
    rw [getElem?_newRegions] at hi
    obtain ⟨key, hkey, rfl⟩ := Option.map_eq_some_iff.mp hi
    obtain ⟨hlt, rfl⟩ := List.getElem?_eq_some_iff.mp hkey
    exact ⟨i, hlt, rfl⟩
  · rintro ⟨i, hi, rfl⟩
    exact ⟨i, by rw [getElem?_newRegions, List.getElem?_eq_getElem hi, Option.map_some]⟩

theorem stores_newRegionPeers (peerIDs : List ℕ) :
    (newRegionPeers region peerIDs).map Peer.storeId = region.stores.take peerIDs.length := by
  rw [newRegionPeers, List.map_map, Region.stores]
  generalize region.peers = peers
  induction peerIDs generalizing peers with
  | nil => simp
  | cons peerID peerIDs ih =>
    cases peers with
    | nil => simp
    | cons peer peers => simpa using ih peers

end

def mergeVersion (source target : ℕ) : ℕ :=
  (if target < source then source + 1 else target + 1) % 2 ^ 64

theorem mergeAll_newRegions {region derived : Region} {epoch : RegionEpoch} {key : Key}
    {keys : List Key} {ids : List ℕ} {sets : List (List ℕ)} (hkey : key ≠ [])
    (hne : ∀ k ∈ keys, k ≠ []) (hend : derived.endKey = key) :
    ∃ merged, mergeAll derived (newRegions region epoch (key :: keys) ids sets) = .ok merged ∧
      merged.startKey = derived.startKey ∧ merged.endKey = region.endKey ∧
      merged.version = (mergeVersion epoch.version)^[keys.length + 1] derived.version := by
  induction keys generalizing derived key ids sets with
  | nil =>
    rw [newRegions, newRegions, mergeAll, execCommitMerge, if_pos ⟨hkey, hend⟩]
    exact ⟨_, rfl, rfl, rfl, rfl⟩
  | cons key' keys ih =>
    have hkey' : key' ≠ [] := hne key' List.mem_cons_self
    -- the first merge ends at the next split key, where the next source starts
    rw [newRegions, mergeAll, execCommitMerge, if_pos ⟨hkey, hend⟩]
    exact ih hkey' (fun k hk => hne k (List.mem_cons_of_mem _ hk)) rfl

theorem succ_mod_eq {P : ℕ} (hP : 0 < P) (j : ℕ) :
    (j + 1) % P = if j % P + 1 = P then 0 else j % P + 1 := by
  rw [← Nat.mod_add_mod]
  split_ifs with hlast
  · rw [hlast, Nat.mod_self]
  · have hlt : j % P < P := Nat.mod_lt j hP
    exact Nat.mod_eq_of_lt (by omega)

theorem mergeVersion_iterate {b : ℕ} (hpos : 0 < b) (hb : b < 2 ^ 64) (j : ℕ) :
    (mergeVersion b)^[j] b =
      if 0 < j ∧ j % (2 ^ 64 - b) = 0 then 0 else b + j % (2 ^ 64 - b) := by
  have hP : 0 < 2 ^ 64 - b := by omega
  induction j with
  | zero => simp
  | succ j ih =>
    have hlt : j % (2 ^ 64 - b) < 2 ^ 64 - b := Nat.mod_lt j hP
    rw [Function.iterate_succ_apply', ih, succ_mod_eq hP j]
    -- the version wraps when the remainder does
    by_cases hzero : 0 < j ∧ j % (2 ^ 64 - b) = 0
    · rw [if_pos hzero, mergeVersion, if_pos hpos, hzero.2]
      by_cases hlast : 0 + 1 = 2 ^ 64 - b
      · rw [if_pos hlast, if_pos ⟨Nat.succ_pos j, rfl⟩]
        omega
      · rw [if_neg hlast, if_neg (by simp)]
        omega
    · rw [if_neg hzero, mergeVersion, if_neg (by omega)]
      by_cases hlast : j % (2 ^ 64 - b) + 1 = 2 ^ 64 - b
      · rw [if_pos hlast, if_pos ⟨Nat.succ_pos j, rfl⟩]
        omega
      · rw [if_neg hlast, if_neg (by simp)]
        omega

/-! ### A split and the merges that undo it -/

structure Lawful (region : Region) (result : SplitRegionResult) : Prop where
  nonempty : ∀ r ∈ result.derived :: result.regions, ∃ key, r.contains key
  ordered : (result.derived :: result.regions).Pairwise fun a b =>
    ∀ x y, a.contains x → b.contains y → x < y
  cover : ∀ key, (∃ r ∈ result.derived :: result.regions, r.contains key) ↔ region.contains key
  peers : ∀ r ∈ result.regions, ∀ storeId ∈ region.stores, r.stores.count storeId = 1
  versions : ∀ r ∈ result.derived :: result.regions, region.version < r.version
  merges : ∃ merged, mergeAll result.derived result.regions = .ok merged ∧
    merged.startKey = region.startKey ∧ merged.endKey = region.endKey ∧
    region.version < merged.version

section

variable {region : Region} {keys : List Key} {ids : List ℕ} {sets : List (List ℕ)}
  {result : SplitRegionResult}

theorem ne_nil_of_ascending {hi : WithTop Key} {lo : Key} (h : Pieces.Ascending hi lo keys) :
    ∀ k ∈ keys, k ≠ [] := by
  rintro k hk rfl
  exact List.not_lt_nil _ (h.lt_of_mem [] hk)

section
variable (h : execBatchSplit region keys ids sets = .ok result)
include h

theorem map_range (hne : keys.headD [] ≠ []) : (result.derived :: result.regions).map Region.range =
        Pieces.pieces region.range.2 region.startKey keys ∧
      Pieces.Ascending region.range.2 region.startKey keys := by
  obtain ⟨-, hvalid, hderived, hregions⟩ := execBatchSplit_ok h
  have hasc := ascending_of_ok hvalid hne
  refine ⟨?_, hasc⟩
  rw [hderived, hregions]
  cases keys with
  | nil => exact absurd rfl hne
  | cons key keys =>
    rw [List.map_cons, map_range_newRegions _ (ne_nil_of_ascending hasc.2)]
    have hkey : key ≠ [] := hne
    simp [Region.range, hkey, Pieces.pieces]

theorem mergeAll_eq (hne : keys.headD [] ≠ []) :
    ∃ merged, mergeAll result.derived result.regions = .ok merged ∧
      merged.startKey = region.startKey ∧ merged.endKey = region.endKey ∧
      merged.version = (mergeVersion ((region.version + keys.length) % 2 ^ 64))^[keys.length]
        ((region.version + keys.length) % 2 ^ 64) := by
  obtain ⟨-, -, hderived, hregions⟩ := execBatchSplit_ok h
  have hasc := (map_range h hne).2
  rw [hderived, hregions]
  cases keys with
  | nil => exact absurd rfl hne
  | cons key keys =>
    exact mergeAll_newRegions hne (ne_nil_of_ascending hasc.2) rfl

theorem peers_iff : (∀ r ∈ result.regions, ∀ storeId ∈ region.stores, r.stores.count storeId = 1) ↔
      ∀ i < keys.length, ∀ storeId ∈ region.stores,
        (region.stores.take (sets.getD i []).length).count storeId = 1 := by
  obtain ⟨-, -, -, hregions⟩ := execBatchSplit_ok h
  simp only [hregions, mem_newRegions_iff]
  constructor
  · intro hpeers i hi storeId hmem
    rw [← stores_newRegionPeers]
    exact hpeers _ ⟨i, hi, rfl⟩ storeId hmem
  · rintro hpeers r ⟨i, hi, rfl⟩ storeId hmem
    show ((newRegionPeers region _).map Peer.storeId).count storeId = 1
    rw [stores_newRegionPeers]
    exact hpeers i hi storeId hmem

end

theorem lt_version_iff (hv : region.version < 2 ^ 64) (hn : keys.length < 2 ^ 63)
    (h : execBatchSplit region keys ids sets = .ok result) :
    (∀ r ∈ result.derived :: result.regions, region.version < r.version) ↔
      region.version + keys.length < 2 ^ 64 := by
  obtain ⟨hnil, -, hderived, hregions⟩ := execBatchSplit_ok h
  have hpos : 0 < keys.length := List.length_pos_of_ne_nil hnil
  have hall : ∀ r ∈ result.derived :: result.regions,
      r.version = (region.version + keys.length) % 2 ^ 64 := by
    intro r hr
    rcases List.mem_cons.mp hr with rfl | hr
    · rw [hderived]
      rfl
    · rw [hregions, mem_newRegions_iff] at hr
      obtain ⟨i, -, rfl⟩ := hr
      rfl
  constructor
  · intro hlt
    have hlt := hlt _ List.mem_cons_self
    rw [hall _ List.mem_cons_self] at hlt
    omega
  · intro hfit r hr
    rw [hall r hr, Nat.mod_eq_of_lt hfit]
    omega

theorem startKey_eq_nil_of_valid (h : validateSplitKeys region none ([] :: keys) = .ok ()) :
    region.startKey = [] := by
  rw [validateSplitKeys] at h
  split_ifs at h with hstart
  by_contra hne
  exact hstart ⟨hne, List.not_lt_nil _⟩

theorem contains_nil {r : Region} (h : r.startKey = []) : r.contains [] := by
  rw [Region.contains_iff, h]
  refine ⟨le_rfl, ?_⟩
  cases r.endKey with
  | nil => exact .inl rfl
  | cons b bs => exact .inr (List.nil_lt_cons b bs)

theorem head_ne_nil_of_ordered (h : execBatchSplit region keys ids sets = .ok result)
    (hord : (result.derived :: result.regions).Pairwise fun a b =>
      ∀ x y, a.contains x → b.contains y → x < y) : keys.headD [] ≠ [] := by
  obtain ⟨hnil, hvalid, hderived, hregions⟩ := execBatchSplit_ok h
  cases keys with
  | nil => exact absurd rfl hnil
  | cons key keys =>
    rintro rfl
    have hstart : region.startKey = [] := startKey_eq_nil_of_valid hvalid
    rw [hderived, hregions, newRegions] at hord
    have hlt := (List.pairwise_cons.mp hord).1 _ List.mem_cons_self [] []
      (contains_nil hstart) (contains_nil rfl)
    exact List.not_lt_nil _ hlt

/-- **When a split that succeeds is a partition that can be merged back**: the first key is not
empty, there is an id for one peer on every store of the region, and no version wraps to what the
region had before. -/
theorem split_merge_iff (hv : region.version < 2 ^ 64) (hn : keys.length < 2 ^ 63)
    (h : execBatchSplit region keys ids sets = .ok result) : Lawful region result ↔
      keys.headD [] ≠ [] ∧
      (∀ i < keys.length, ∀ storeId ∈ region.stores,
        (region.stores.take (sets.getD i []).length).count storeId = 1) ∧
      region.version + keys.length < 2 ^ 64 ∧
      ¬ 2 ^ 64 - (region.version + keys.length) ∣ keys.length := by
  have hpos : 0 < keys.length := List.length_pos_of_ne_nil (execBatchSplit_ok h).1
  rw [← peers_iff h, ← lt_version_iff hv hn h]
  constructor
  · intro hl
    have hne := head_ne_nil_of_ordered h hl.ordered
    refine ⟨hne, hl.peers, hl.versions, ?_⟩
    obtain ⟨merged, hmerged, -, -, hlt⟩ := hl.merges
    obtain ⟨merged', hmerged', -, -, hversion⟩ := mergeAll_eq h hne
    obtain rfl : merged = merged' := Except.ok.inj (hmerged.symm.trans hmerged')
    intro hdvd
    have hfit := (lt_version_iff hv hn h).mp hl.versions
    rw [hversion, Nat.mod_eq_of_lt hfit, mergeVersion_iterate (by omega) hfit,
      if_pos ⟨hpos, Nat.mod_eq_zero_of_dvd hdvd⟩] at hlt
    exact Nat.not_lt_zero _ hlt
  · rintro ⟨hne, hpeers, hversions, hdvd⟩
    obtain ⟨hranges, hasc⟩ := map_range h hne
    refine ⟨?_, ?_, ?_, hpeers, hversions, ?_⟩
    · have hnonempty := Pieces.nonempty_of_ascending hasc
      rw [← hranges, List.forall_mem_map] at hnonempty
      simpa only [Region.contains_iff_mem_range] using hnonempty
    · have hordered := Pieces.ordered_of_ascending hasc
      rw [← hranges, List.pairwise_map] at hordered
      simpa only [Region.contains_iff_mem_range] using hordered
    · intro key
      have hcover := Pieces.exists_mem_pieces_iff hasc (x := key)
      rw [← hranges] at hcover
      simp only [List.mem_map, exists_exists_and_eq_and] at hcover
      simp only [Region.contains_iff_mem_range]
      exact hcover
    · obtain ⟨merged, hmerged, hstart, hend, hversion⟩ := mergeAll_eq h hne
      refine ⟨merged, hmerged, hstart, hend, ?_⟩
      have hfit := (lt_version_iff hv hn h).mp hversions
      rw [hversion, Nat.mod_eq_of_lt hfit, mergeVersion_iterate (by omega) hfit,
        if_neg fun hz => hdvd (Nat.dvd_of_mod_eq_zero hz.2)]
      omega

def wholeRegion : Region where
  id := 1
  regionEpoch := some { confVer := 1, version := 1 }
  peers := [⟨11, 1, .voter⟩, ⟨12, 2, .voter⟩, ⟨13, 3, .voter⟩]

theorem split_merge_iff_inThree : ∃ result,
    execBatchSplit wholeRegion [[5], [7]] [2, 3] [[21, 22, 23], [31, 32, 33]] = .ok result ∧
      Lawful wholeRegion result :=
  have h : execBatchSplit wholeRegion [[5], [7]] [2, 3] [[21, 22, 23], [31, 32, 33]] = .ok _ := rfl
  ⟨_, h, (split_merge_iff (by decide) (by decide) h).mpr (by decide)⟩

theorem split_merge_fails :
    (∃ result, execBatchSplit wholeRegion [[]] [2] [[21, 22, 23]] = .ok result ∧
      (∀ r ∈ result.derived :: result.regions, r.contains [5]) ∧
      mergeAll result.derived result.regions =
        .error (.notAdjacent (result.regions.headD result.derived) result.derived)) ∧
    ∃ result, execBatchSplit wholeRegion [[5]] [2] [[21]] = .ok result ∧
      result.regions.map Region.stores = [[1]] ∧ wholeRegion.stores = [1, 2, 3] :=
  ⟨⟨_, rfl, by decide, rfl⟩, ⟨_, rfl, rfl, rfl⟩⟩

end

end SplitMerge

end Raftstore
