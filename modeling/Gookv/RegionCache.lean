/-
The region cache of a client: `pkg/client/region_cache.go`.
-/
import Gookv.StepSystem
import Gookv.Search
import Gookv.Region

namespace Client

open Txntypes Metapb List Option Region Search

structure RegionInfo where
  region : Region
  leader : Peer
  storeAddr : String
  deriving DecidableEq

structure RegionCache where
  regions : List RegionInfo
  byID : ℕ → Option ℕ

namespace RegionCache

def empty : RegionCache := ⟨[], fun _ => none⟩

open RegionCache

def findInCache (c : RegionCache) (key : Key) : Option RegionInfo :=
  if c.regions.length = 0 then none
  else
    match Search.firstAbove (fun info : RegionInfo => info.region.startKey) c.regions key with
    | 0 => none
    | idx + 1 =>
      match c.regions[idx]? with
      | none => none
      | some info =>
        if info.region.endKey ≠ [] ∧ ¬ key < info.region.endKey then none else some info

def regionsOverlap (aStart aEnd bStart bEnd : Key) : Bool :=
  if bEnd ≠ [] ∧ ¬ aStart < bEnd then false
  else if aEnd ≠ [] ∧ ¬ bStart < aEnd then false
  else true

def rebuildByID (regions : List RegionInfo) : ℕ → Option ℕ :=
  regions.zipIdx.foldl
    (fun byID (info, i) => Function.update byID info.region.id (some i)) fun _ => none

def insertLocked (c : RegionCache) (info : RegionInfo) : RegionCache :=
  match c.byID info.region.id with
  | some idx => { c with regions := c.regions.set idx info }
  | none =>
    let kept := c.regions.filter fun existing =>
      !(existing.region.id != info.region.id &&
        regionsOverlap existing.region.startKey existing.region.endKey
          info.region.startKey info.region.endKey)
    let pos := Search.firstAbove (fun info : RegionInfo => info.region.startKey) kept
      info.region.startKey
    let regions := kept.take pos ++ info :: kept.drop pos
    ⟨regions, rebuildByID regions⟩

def resolved (region : Region) (leader : Option Peer) (storeAddr : Option String) :
    Option RegionInfo :=
  leader.bind fun leader => storeAddr.map fun storeAddr => ⟨region, leader, storeAddr⟩

def loadFromPD (c : RegionCache) (region : Region) (leader : Option Peer)
    (storeAddr : Option String) : RegionCache :=
  (resolved region (leader.or region.peers.head?) storeAddr).elim c c.insertLocked

def insertFromEpochNotMatch (c : RegionCache) (region : Region) (storeAddr : Option String) :
    RegionCache :=
  (resolved region region.peers.head? storeAddr).elim c c.insertLocked

def invalidateRegion (c : RegionCache) (regionID : ℕ) : RegionCache :=
  match c.byID regionID with
  | none => c
  | some idx =>
    let regions := c.regions.take idx ++ c.regions.drop (idx + 1)
    ⟨regions, rebuildByID regions⟩

def updateLeader (c : RegionCache) (regionID : ℕ) (leader : Peer) (storeAddr : String) :
    RegionCache :=
  match c.byID regionID with
  | none => c
  | some idx => { c with regions := c.regions.modify idx fun info => { info with leader, storeAddr } }

end RegionCache

/-! ### Runs -/

inductive CacheAction
  | loadFromPD (region : Region) (leader : Option Peer) (storeAddr : Option String)
  | insertFromEpochNotMatch (region : Region) (storeAddr : Option String)
  | invalidateRegion (regionID : ℕ)
  | updateLeader (regionID : ℕ) (leader : Peer) (storeAddr : String)

def ProperRange (r : Region) : Prop := r.endKey = [] ∨ r.startKey < r.endKey

instance (r : Region) : Decidable (ProperRange r) := inferInstanceAs (Decidable (_ ∨ _))

def cacheStep (c : RegionCache) : CacheAction → Option RegionCache
  | .loadFromPD region leader storeAddr =>
    if ProperRange region then some (c.loadFromPD region leader storeAddr) else none
  | .insertFromEpochNotMatch region storeAddr =>
    if ProperRange region then some (c.insertFromEpochNotMatch region storeAddr) else none
  | .invalidateRegion regionID => some (c.invalidateRegion regionID)
  | .updateLeader regionID leader storeAddr => some (c.updateLeader regionID leader storeAddr)

def cacheSystem : StepSystem RegionCache CacheAction := ⟨.empty, cacheStep⟩

def CacheAction.arrival : CacheAction → Option RegionInfo
  | .loadFromPD region leader storeAddr =>
    RegionCache.resolved region (leader.or region.peers.head?) storeAddr
  | .insertFromEpochNotMatch region storeAddr =>
    RegionCache.resolved region region.peers.head? storeAddr
  | .invalidateRegion _ | .updateLeader _ _ _ => none

theorem RegionCache.region_of_resolved {region : Region} {leader : Option Peer}
    {storeAddr : Option String} {info : RegionInfo}
    (h : resolved region leader storeAddr = some info) : info.region = region := by
  obtain ⟨_, -, h⟩ := bind_eq_some_iff.mp h
  obtain ⟨_, -, rfl⟩ := map_eq_some_iff.mp h
  rfl

variable {c' : RegionCache}

theorem cacheStep_cases {c : RegionCache} {a : CacheAction} (h : cacheStep c a = some c') :
    (∃ info, a.arrival = some info ∧ ProperRange info.region ∧ c' = c.insertLocked info) ∨
    (a.arrival = none ∧ (c' = c ∨ (∃ regionID, c' = c.invalidateRegion regionID) ∨
      ∃ regionID leader storeAddr, c' = c.updateLeader regionID leader storeAddr)) := by
  -- both ways in which a region arrives end in the same insertion
  have harrive : ∀ {region : Region} {leader : Option Peer} {storeAddr : Option String},
      ProperRange region → ∀ o, o = RegionCache.resolved region leader storeAddr →
      (∃ info, o = some info ∧ ProperRange info.region ∧
        o.elim c c.insertLocked = c.insertLocked info) ∨
      (o = none ∧ o.elim c c.insertLocked = c) := by
    intro region leader storeAddr hproper o ho
    rcases o with _ | info
    · exact .inr ⟨rfl, rfl⟩
    · refine .inl ⟨info, rfl, ?_, rfl⟩
      rwa [RegionCache.region_of_resolved ho.symm]
  cases a with
  | loadFromPD region leader storeAddr | insertFromEpochNotMatch region storeAddr =>
    obtain ⟨hproper, rfl⟩ := StepSystem.of_guard h
    rcases harrive hproper _ rfl with harrived | ⟨hnone, hsame⟩
    · exact .inl harrived
    · exact .inr ⟨hnone, .inl hsame⟩
  | invalidateRegion regionID => exact .inr ⟨rfl, .inr (.inl ⟨regionID, (Option.some.inj h).symm⟩)⟩
  | updateLeader regionID leader storeAddr =>
    exact .inr ⟨rfl, .inr (.inr ⟨regionID, leader, storeAddr, (Option.some.inj h).symm⟩)⟩

def Apart (a b : Region) : Prop := ∀ key, ¬ (a.contains key ∧ b.contains key)

structure RegionCache.Consistent (c : RegionCache) : Prop where
  sorted : c.regions.Pairwise fun a b => a.region.startKey < b.region.startKey
  disjoint : c.regions.Pairwise fun a b => Apart a.region b.region
  indexed : ∀ id i, c.byID id = some i ↔ (c.regions[i]?).map (·.region.id) = some id
  finds : ∀ key info, c.findInCache key = some info ↔
    info ∈ c.regions ∧ info.region.contains key

def Precedes (a b : Region) : Prop := a.startKey < b.startKey ∧ Apart a b

def RegionCache.FitsAt (c : RegionCache) (idx : ℕ) (region : Region) : Prop :=
  (∀ a ∈ c.regions.take idx, Precedes a.region region) ∧
    ∀ b ∈ c.regions.drop (idx + 1), Precedes region b.region

def Fits (c : RegionCache) (a : CacheAction) : Prop :=
  ∀ info ∈ a.arrival, ∀ idx ∈ c.byID info.region.id, c.FitsAt idx info.region

variable {a b : Region}

theorem contains_startKey (ha : ProperRange a) : a.contains a.startKey :=
  contains_iff.mpr ⟨le_rfl, ha⟩

theorem precedes_of_not_overlap (ha : ProperRange a) (hb : ProperRange b)
    (hle : a.startKey ≤ b.startKey)
    (h : RegionCache.regionsOverlap a.startKey a.endKey b.startKey b.endKey = false) :
    Precedes a b := by
  have hend : a.endKey ≠ [] ∧ a.endKey ≤ b.startKey := by
    rw [RegionCache.regionsOverlap] at h
    split_ifs at h with h₁ h₂
    · -- the first region would have to start behind the end of the second
      rcases hb with hb | hb
      · exact absurd hb h₁.1
      · exact absurd (hle.trans_lt hb) h₁.2
    · exact ⟨h₂.1, not_lt.mp h₂.2⟩
  refine ⟨?_, fun key hkey => ?_⟩
  · exact (ha.resolve_left hend.1).trans_le hend.2
  · obtain ⟨-, hlt⟩ := Region.contains_iff.mp hkey.1
    obtain ⟨hle', -⟩ := Region.contains_iff.mp hkey.2
    exact absurd (hlt.resolve_left hend.1) (not_lt.mpr (hend.2.trans hle'))

theorem regionsOverlap_comm (aStart aEnd bStart bEnd : Key) :
    RegionCache.regionsOverlap aStart aEnd bStart bEnd =
      RegionCache.regionsOverlap bStart bEnd aStart aEnd := by
  unfold RegionCache.regionsOverlap
  split_ifs <;> rfl

theorem lt_startKey_of_precedes {key : Key} (hb : ProperRange b) (h : Precedes a b)
    (hkey : a.contains key) : key < b.startKey := by
  by_contra hle
  obtain ⟨-, hend⟩ := contains_iff.mp hkey
  have hmem : a.contains b.startKey :=
    contains_iff.mpr ⟨h.1.le, hend.imp_right (not_lt.mp hle).trans_lt⟩
  exact h.2 _ ⟨hmem, contains_startKey hb⟩

namespace RegionCache

variable {c : RegionCache} {info : RegionInfo}

variable {info' : RegionInfo} {idx : ℕ}

theorem rebuildByID_concat (regions : List RegionInfo) (info : RegionInfo) :
    rebuildByID (regions ++ [info]) =
      Function.update (rebuildByID regions) info.region.id (some regions.length) := by
  rw [rebuildByID, zipIdx_append, foldl_append, Nat.zero_add]
  rfl

theorem rebuildByID_eq_some_iff (regions : List RegionInfo)
    (hids : (regions.map (·.region.id)).Nodup) (id i : ℕ) :
    rebuildByID regions id = some i ↔ (regions[i]?).map (·.region.id) = some id := by
  induction regions using List.reverseRecOn with
  | nil => simp [rebuildByID]
  | append_singleton regions info ih =>
    rw [map_append, nodup_append] at hids
    obtain ⟨hids, -, hnew⟩ := hids
    have hold : ∀ x ∈ regions, x.region.id ≠ info.region.id := fun x hx =>
      hnew _ (mem_map_of_mem hx) _ (by simp)
    rw [rebuildByID_concat]
    by_cases hid : id = info.region.id
    · -- the new id has the last position, and only this one
      rw [hid, Function.update_self, Option.some_inj]
      constructor
      · rintro rfl
        simp
      · intro h
        obtain ⟨x, hx, hxid⟩ := Option.map_eq_some_iff.mp h
        have hlen : i < (regions ++ [info]).length := (List.getElem?_eq_some_iff.mp hx).1
        rw [length_append, length_singleton] at hlen
        rcases Nat.lt_succ_iff_lt_or_eq.mp hlen with hlt | heq
        · rw [getElem?_append_left hlt] at hx
          exact absurd hxid (hold x (mem_of_getElem? hx))
        · exact heq.symm
    · rw [Function.update_of_ne hid, ih hids]
      rcases lt_trichotomy i regions.length with hlt | rfl | hlt
      · rw [getElem?_append_left hlt]
      · simp [Ne.symm hid]
      · rw [getElem?_eq_none hlt.le, getElem?_eq_none]
        rwa [length_append, length_singleton]

/-! ### Lookups -/

structure Ordered (c : RegionCache) : Prop where
  proper : ∀ info ∈ c.regions, ProperRange info.region
  precedes : c.regions.Pairwise fun a b => Precedes a.region b.region

theorem Ordered.sorted (h : c.Ordered) :
    c.regions.Pairwise fun a b => a.region.startKey < b.region.startKey :=
  h.precedes.imp And.left

theorem findInCache_eq_some_iff (key : Key) (n : ℕ)
    (hn : n = Search.firstAbove (fun info : RegionInfo => info.region.startKey) c.regions key)
    (hlen : n ≤ c.regions.length) :
    c.findInCache key = some info ↔ n ≠ 0 ∧ c.regions[n - 1]? = some info ∧
      (info.region.endKey = [] ∨ key < info.region.endKey) := by
  rw [findInCache, ← hn]
  split_ifs with hempty
  · have hzero : n = 0 := by omega
    simp [hzero]
  · rcases n with _ | idx
    · simp
    · have hidx : idx < c.regions.length := by omega
      simp only [Nat.add_sub_cancel, getElem?_eq_getElem hidx, some_inj]
      split_ifs with hend
      · constructor
        · exact fun h => absurd h (by simp)
        · rintro ⟨-, rfl, h⟩
          exact absurd h (by tauto)
      · rw [some_inj]
        constructor
        · rintro rfl
          exact ⟨Nat.succ_ne_zero idx, rfl, by tauto⟩
        · exact fun h => h.2.1

theorem Ordered.finds (h : c.Ordered) (key : Key) (info : RegionInfo) :
    c.findInCache key = some info ↔ info ∈ c.regions ∧ info.region.contains key := by
  obtain ⟨hlen, hbefore, hafter⟩ := Search.search_split (b := key) h.sorted
  rw [findInCache_eq_some_iff key _ rfl hlen]
  set n := Search.firstAbove (fun info : RegionInfo => info.region.startKey) c.regions key
  constructor
  · rintro ⟨hn, hinfo, hend⟩
    refine ⟨mem_of_getElem? hinfo, Region.contains_iff.mpr ⟨hbefore info ?_, hend⟩⟩
    obtain ⟨hlt, rfl⟩ := List.getElem?_eq_some_iff.mp hinfo
    exact List.mem_take_iff_getElem.mpr ⟨n - 1, by omega, rfl⟩
  · rintro ⟨hmem, hkey⟩
    obtain ⟨hstart, hend⟩ := Region.contains_iff.mp hkey
    obtain ⟨i, hi, rfl⟩ := List.mem_iff_getElem.mp hmem
    have hin : i < n := by
      by_contra hle
      refine absurd (hafter c.regions[i] ?_) (not_lt.mpr hstart)
      exact List.mem_drop_iff_getElem.mpr ⟨i - n, by omega, by congr 1; omega⟩
    -- a region between it and the position would start above the key
    have hlast : n - 1 = i := by
      by_contra hne
      have hpre := List.pairwise_iff_getElem.mp h.precedes i (n - 1) hi (by omega) (by omega)
      have habove := lt_startKey_of_precedes (h.proper _ (getElem_mem _)) hpre hkey
      refine absurd (hbefore _ ?_) (not_le.mpr habove)
      exact List.mem_take_iff_getElem.mpr ⟨n - 1, by omega, rfl⟩
    exact ⟨by omega, by rw [hlast, getElem?_eq_getElem hi], hend⟩

/-! ### Steps -/

def Indexed (c : RegionCache) : Prop :=
  ∀ id i, c.byID id = some i ↔ (c.regions[i]?).map (·.region.id) = some id

theorem Ordered.consistent (h : c.Ordered) (hindex : c.Indexed) : c.Consistent where
  sorted := h.sorted
  disjoint := h.precedes.imp And.right
  indexed := hindex
  finds := h.finds

theorem Indexed.nodup (h : c.Indexed) : (c.regions.map (·.region.id)).Nodup := by
  rw [nodup_iff_getElem?_ne_getElem?]
  intro i j hij hj heq
  rw [length_map] at hj
  have hi : i < c.regions.length := hij.trans hj
  rw [getElem?_map, getElem?_map, getElem?_eq_getElem hi,
    getElem?_eq_getElem hj, map_some, map_some] at heq
  have hi' := (h c.regions[j].region.id i).mpr (by rw [getElem?_eq_getElem hi]; exact heq)
  have hj' := (h c.regions[j].region.id j).mpr (by rw [getElem?_eq_getElem hj]; rfl)
  rw [hi', some_inj] at hj'
  omega

theorem indexed_rebuildByID {regions : List RegionInfo}
    (hids : (regions.map (·.region.id)).Nodup) : Indexed ⟨regions, rebuildByID regions⟩ :=
  rebuildByID_eq_some_iff regions hids

theorem pairwise_insert {α : Type*} {R : α → α → Prop} {l₁ l₂ : List α} {x : α} :
    (l₁ ++ x :: l₂).Pairwise R ↔
      (l₁ ++ l₂).Pairwise R ∧ (∀ a ∈ l₁, R a x) ∧ ∀ b ∈ l₂, R x b := by
  simp only [pairwise_append, pairwise_cons, forall_mem_cons]
  constructor
  · rintro ⟨h₁, ⟨hb, h₂⟩, hx⟩
    exact ⟨⟨h₁, h₂, fun a ha => (hx a ha).2⟩, fun a ha => (hx a ha).1, hb⟩
  · rintro ⟨⟨h₁, h₂, h⟩, ha, hb⟩
    exact ⟨h₁, ⟨hb, h₂⟩, fun a hmem => ⟨ha a hmem, h a hmem⟩⟩

theorem Ordered.sublist (h : c.Ordered) {regions : List RegionInfo} {byID : ℕ → Option ℕ}
    (hsub : regions.Sublist c.regions) : Ordered ⟨regions, byID⟩ :=
  ⟨fun info hinfo => h.proper info (hsub.subset hinfo), h.precedes.sublist hsub⟩

theorem Ordered.insert {before behind : List RegionInfo} {byID byID' : ℕ → Option ℕ}
    (h : Ordered ⟨before ++ behind, byID⟩) (hinfo : ProperRange info.region)
    (hbefore : ∀ a ∈ before, Precedes a.region info.region)
    (hbehind : ∀ b ∈ behind, Precedes info.region b.region) :
    Ordered ⟨before ++ info :: behind, byID'⟩ := by
  refine ⟨?_, pairwise_insert.mpr ⟨h.precedes, hbefore, hbehind⟩⟩
  intro x hx
  have hor : x = info ∨ x ∈ before ++ behind := by simpa [or_left_comm] using hx
  rcases hor with rfl | hx
  · exact hinfo
  · exact h.proper x hx

theorem lt_length_of_byID (h : c.Indexed) {id : ℕ} (hidx : c.byID id = some idx) :
    ∃ old, c.regions[idx]? = some old ∧ old.region.id = id :=
  map_eq_some_iff.mp ((h id idx).mp hidx)

theorem insertLocked_of_byID (h : c.Indexed) (hidx : c.byID info.region.id = some idx) :
    c.insertLocked info =
      ⟨c.regions.take idx ++ info :: c.regions.drop (idx + 1), c.byID⟩ := by
  obtain ⟨old, hold, -⟩ := lt_length_of_byID h hidx
  have hlt : idx < c.regions.length := (List.getElem?_eq_some_iff.mp hold).1
  rw [insertLocked, hidx]
  simp only [set_eq_take_append_cons_drop, if_pos hlt]

theorem indexed_insertLocked_of_byID (h : c.Indexed)
    (hidx : c.byID info.region.id = some idx) : (c.insertLocked info).Indexed := by
  obtain ⟨old, hold, hid⟩ := lt_length_of_byID h hidx
  have hlt : idx < c.regions.length := (List.getElem?_eq_some_iff.mp hold).1
  intro id i
  rw [insertLocked, hidx]
  show c.byID id = some i ↔ ((c.regions.set idx info)[i]?).map (·.region.id) = some id
  rw [h id i]
  by_cases hi : idx = i
  · subst hi
    rw [getElem?_set_self hlt, hold, Option.map_some, Option.map_some, hid]
  · rw [getElem?_set_ne hi]

theorem insertLocked_of_not_byID (hc : c.Ordered) (h : c.Indexed)
    (hinfo : ProperRange info.region) (hnone : c.byID info.region.id = none) :
    (c.insertLocked info).Ordered ∧ (c.insertLocked info).Indexed := by
  have hid : ∀ x ∈ c.regions, x.region.id ≠ info.region.id := by
    intro x hx heq
    obtain ⟨i, hi⟩ := mem_iff_getElem?.mp hx
    have := (h info.region.id i).mpr (by rw [hi, map_some, heq])
    simp [hnone] at this
  rw [insertLocked, hnone]
  simp only
  set kept := c.regions.filter fun existing =>
    !(existing.region.id != info.region.id &&
      regionsOverlap existing.region.startKey existing.region.endKey
        info.region.startKey info.region.endKey) with hkept
  set pos := firstAbove (fun info : RegionInfo => info.region.startKey) kept
    info.region.startKey
  have hsub : kept.Sublist c.regions := filter_sublist
  have hfree : ∀ x ∈ kept, regionsOverlap x.region.startKey x.region.endKey
      info.region.startKey info.region.endKey = false := by
    intro x hx
    have := (mem_filter.mp hx).2
    simpa [hid x (hsub.subset hx)] using this
  have hordered : Ordered ⟨kept.take pos ++ kept.drop pos, c.byID⟩ := by
    rw [take_append_drop]
    exact hc.sublist hsub
  obtain ⟨-, hle, hgt⟩ := search_split (b := info.region.startKey)
    (Ordered.sorted (c := ⟨kept, c.byID⟩) (hc.sublist hsub))
  constructor
  · refine hordered.insert hinfo (fun x hx => ?_) fun x hx => ?_
    · have hx' := mem_of_mem_take hx
      exact precedes_of_not_overlap (hc.proper x (hsub.subset hx')) hinfo (hle x hx)
        (hfree x hx')
    · have hx' := mem_of_mem_drop hx
      refine precedes_of_not_overlap hinfo (hc.proper x (hsub.subset hx')) (hgt x hx).le ?_
      rw [regionsOverlap_comm]
      exact hfree x hx'
  · apply indexed_rebuildByID
    rw [map_append, map_cons, nodup_middle, ← map_append,
      take_append_drop, nodup_cons]
    refine ⟨fun hmem => ?_, h.nodup.sublist (hsub.map _)⟩
    obtain ⟨x, hx, heq⟩ := mem_map.mp hmem
    exact hid x (hsub.subset hx) heq

theorem ordered_insertLocked_iff (hc : c.Ordered) (h : c.Indexed)
    (hinfo : ProperRange info.region) (hidx : c.byID info.region.id = some idx) :
    (c.insertLocked info).Ordered ↔ c.FitsAt idx info.region := by
  rw [insertLocked_of_byID h hidx]
  have hrest : Ordered ⟨c.regions.take idx ++ c.regions.drop (idx + 1), c.byID⟩ := by
    refine hc.sublist ?_
    rw [← eraseIdx_eq_take_drop_succ]
    exact eraseIdx_sublist ..
  constructor
  · exact fun h => (pairwise_insert.mp h.precedes).2
  · exact fun h => hrest.insert hinfo h.1 h.2

theorem invalidateRegion_keeps (hc : c.Ordered) (h : c.Indexed) (regionID : ℕ) :
    (c.invalidateRegion regionID).Ordered ∧ (c.invalidateRegion regionID).Indexed := by
  rw [invalidateRegion]
  rcases c.byID regionID with _ | idx
  · exact ⟨hc, h⟩
  · have hsub : (c.regions.take idx ++ c.regions.drop (idx + 1)).Sublist c.regions := by
      rw [← eraseIdx_eq_take_drop_succ]
      exact eraseIdx_sublist ..
    exact ⟨hc.sublist hsub, indexed_rebuildByID (h.nodup.sublist (hsub.map _))⟩

theorem keeps_of_map_region (hc : c.Ordered) (h : c.Indexed)
    (hmap : c'.regions.map (·.region) = c.regions.map (·.region)) (hbyID : c'.byID = c.byID) :
    c'.Ordered ∧ c'.Indexed := by
  refine ⟨⟨?_, ?_⟩, fun id i => ?_⟩
  · rw [← List.forall_mem_map (P := ProperRange), hmap, List.forall_mem_map]
    exact hc.proper
  · rw [← List.pairwise_map (R := Precedes), hmap, List.pairwise_map]
    exact hc.precedes
  · have hi := congrArg (fun l => (l[i]?).map (·.id)) hmap
    simp only [getElem?_map, Option.map_map] at hi
    rw [hbyID, h id i]
    show (c.regions[i]?).map ((·.id) ∘ (·.region)) = _ ↔ _
    rw [← hi]
    rfl

theorem updateLeader_keeps (hc : c.Ordered) (h : c.Indexed) (regionID : ℕ) (leader : Peer)
    (storeAddr : String) : (c.updateLeader regionID leader storeAddr).Ordered ∧
      (c.updateLeader regionID leader storeAddr).Indexed := by
  rw [updateLeader]
  rcases c.byID regionID with _ | idx
  · exact ⟨hc, h⟩
  · refine keeps_of_map_region hc h (ext_getElem? fun i => ?_) rfl
    rw [getElem?_map, getElem?_map, getElem?_modify]
    rcases c.regions[i]? with _ | info
    · rfl
    · split_ifs <;> rfl

end RegionCache

theorem cacheStep_keeps {c : RegionCache} {a : CacheAction} (hc : c.Ordered ∧ c.Indexed)
    (hfits : Fits c a) (h : cacheStep c a = some c') : c'.Ordered ∧ c'.Indexed := by
  rcases cacheStep_cases h with ⟨info, harrival, hproper, rfl⟩ | ⟨-, rfl | ⟨id, rfl⟩ | ⟨_, _, _, rfl⟩⟩
  · rcases hidx : c.byID info.region.id with _ | idx
    · exact RegionCache.insertLocked_of_not_byID hc.1 hc.2 hproper hidx
    · refine ⟨?_, RegionCache.indexed_insertLocked_of_byID hc.2 hidx⟩
      exact (RegionCache.ordered_insertLocked_iff hc.1 hc.2 hproper hidx).mpr
        (hfits info harrival idx hidx)
  · exact hc
  · exact RegionCache.invalidateRegion_keeps hc.1 hc.2 id
  · exact RegionCache.updateLeader_keeps hc.1 hc.2 ..

theorem cacheStep_breaks {c : RegionCache} {a : CacheAction} (hc : c.Ordered ∧ c.Indexed)
    (hfits : ¬ Fits c a) (h : cacheStep c a = some c') : ¬ c'.Consistent := by
  intro hcons
  apply hfits
  intro info harrival idx hidx
  rcases cacheStep_cases h with ⟨info', harrival', hproper, rfl⟩ | ⟨hnone, -⟩
  · obtain rfl : info' = info := Option.some.inj (harrival'.symm.trans harrival)
    rw [RegionCache.insertLocked_of_byID hc.2 hidx] at hcons
    exact (RegionCache.pairwise_insert.mp (hcons.sorted.and hcons.disjoint)).2
  · exact absurd (hnone.symm.trans harrival) (by simp)

/-- **The cache stays consistent exactly when every region that arrives under a cached id
fits in the place of the old one.** -/
theorem consistent_iff_fits (as : List CacheAction) :
    cacheSystem.AlwaysAfter RegionCache.Consistent .empty as ↔
      cacheSystem.Meets Fits .empty as := by
  have hempty : RegionCache.Ordered .empty ∧ RegionCache.Indexed .empty := by
    refine ⟨⟨fun _ h => absurd h not_mem_nil, List.Pairwise.nil⟩, fun id i => ?_⟩
    simp [RegionCache.empty]
  refine StepSystem.alwaysAfter_iff (I := fun c => c.Ordered ∧ c.Indexed) ?_ ?_ hempty as
  · intro c c' a hc hfits h
    have hc' := cacheStep_keeps hc hfits h
    exact ⟨hc', hc'.1.consistent hc'.2⟩
  · exact fun c c' a hc hfits h => cacheStep_breaks hc hfits h

def beforeSplit : Region := ⟨1, [], [], none, [⟨1, 1, .voter⟩]⟩

def splitLeft : Region := ⟨1, [], [109], none, [⟨1, 1, .voter⟩]⟩

def splitRight : Region := ⟨2, [109], [112], none, [⟨2, 1, .voter⟩]⟩

def staleActions : List CacheAction :=
  [.insertFromEpochNotMatch splitLeft (some "tikv1"),
    .insertFromEpochNotMatch splitRight (some "tikv1"),
    .loadFromPD beforeSplit none (some "tikv1")]

/-- **The old region takes the place of its left part**: it overlaps the right part, and
keys that it contains are not found. -/
theorem stale_region_breaks_cache :
    ¬ cacheSystem.AlwaysAfter RegionCache.Consistent .empty staleActions ∧
      (cacheSystem.runFrom .empty staleActions).map (fun c => (c.regions.map (·.region),
        c.findInCache [122], decide (beforeSplit.contains [122]))) =
        some ([beforeSplit, splitRight], none, true) := by
  refine ⟨fun h => ?_, by decide⟩
  obtain ⟨-, h⟩ := h _ rfl
  obtain ⟨-, h⟩ := h _ rfl
  obtain ⟨hcons, -⟩ := h _ rfl
  have hfound := (hcons.finds [122] ⟨beforeSplit, ⟨1, 1, .voter⟩, "tikv1"⟩).mpr (by decide)
  exact absurd hfound (by decide)

end Client
