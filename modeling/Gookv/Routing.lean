/-
Routing modifications to regions: `resolveRegionID` and `groupModifiesByRegion` of
`internal/server/server.go`, `ResolveRegionForKey` of `coordinator.go`.
-/
import Gookv.Region
import Gookv.Modifies

namespace Routing

open Txntypes StoreRestart Metapb Codec Mvcc List Region

/-- One round of `ResolveRegionForKey`; `best` is the region found so far. -/
def resolveStep (key : Key) (best : Option (ℕ × Key)) (region : Region) : Option (ℕ × Key) :=
  if region.startKey ≠ [] ∧ key < region.startKey then best
  else if region.endKey ≠ [] ∧ ¬ key < region.endKey then best
  else
    match best with
    | none => some (region.id, region.startKey)
    | some (_, bestStartKey) =>
      if bestStartKey < region.startKey then some (region.id, region.startKey) else best

/-- `ResolveRegionForKey`, with the regions in the order of the map; 0 when there is none. -/
def resolveRegionForKey (regions : List Region) (key : Key) : ℕ :=
  ((regions.foldl (resolveStep key) none).map Prod.fst).getD 0

def resolveRegionID (regions : List Region) (key : Key) : ℕ :=
  let rid := resolveRegionForKey regions (encodeLockKey key)
  if rid ≠ 0 then rid else 1

def routingKey (m : StoreRestart.Modify) : Key :=
  match decodeKey m.key with
  | .ok (rawKey, _) => encodeLockKey rawKey
  | .error _ => m.key

def groupModifiesByRegion (iterate : ℕ → List Region) (modifies : List StoreRestart.Modify) :
    ℕ → List StoreRestart.Modify :=
  modifies.zipIdx.foldl
    (fun groups (m, i) =>
      let regionID := resolveRegionID (iterate i) (routingKey m)
      Function.update groups regionID (groups regionID ++ [m]))
    fun _ => []

structure Store where
  regions : List Region
  nodup_id : (regions.map Region.id).Nodup
  id_ne_zero : ∀ r ∈ regions, r.id ≠ 0
  startKey_encoded : ∀ r ∈ regions, r.startKey = [] ∨ ∃ b, r.startKey = encodeBytes b
  endKey_encoded : ∀ r ∈ regions, r.endKey = [] ∨ ∃ b, r.endKey = encodeBytes b
  startKey_lt : ∀ r ∈ regions, r.endKey = [] ∨ r.startKey < r.endKey
  owner : ∀ k : Key, ∃! r, r ∈ regions ∧ r.contains (encodeBytes k)
  iterate : ℕ → List Region
  perm_iterate : ∀ i, (iterate i).Perm regions

inductive UserWrite
  | txn (m : Mvcc.Modify)
  | rawPut (now : UInt64) (cf : Option CF) (key : Key) (value : Value) (ttl : Option UInt64)
  | rawDelete (cf : Option CF) (key : Key)

def UserWrite.userKey : UserWrite → Key
  | .txn m => m.key
  | .rawPut _ _ key _ _ => key
  | .rawDelete _ key => key

def UserWrite.modify (M : Marshal) : UserWrite → StoreRestart.Modify
  | .txn m => m.encoded M
  | .rawPut now cf key value ttl => RawStorage.putModify now cf key value ttl
  | .rawDelete cf key => RawStorage.deleteModify cf key

def Store.Owns (s : Store) (regionID : ℕ) (w : UserWrite) : Prop :=
  ∃ r ∈ s.regions, r.id = regionID ∧ r.contains (encodeBytes w.userKey)

instance (s : Store) (regionID : ℕ) (w : UserWrite) : Decidable (s.Owns regionID w) :=
  inferInstanceAs (Decidable (∃ r ∈ _, _))

structure RoutedToOwner (M : Marshal) (s : Store) (ws : List UserWrite) : Prop where
  group : ∀ regionID, groupModifiesByRegion s.iterate (ws.map (·.modify M)) regionID =
    (ws.filter fun w => s.Owns regionID w).map (·.modify M)
  together : ∀ w ∈ ws, ∀ w' ∈ ws, w.userKey = w'.userKey → ∀ regionID,
    w.modify M ∈ groupModifiesByRegion s.iterate (ws.map (·.modify M)) regionID ↔
      w'.modify M ∈ groupModifiesByRegion s.iterate (ws.map (·.modify M)) regionID

def UserWrite.comparedAs : UserWrite → Key
  | .txn m => encodeBytes m.key
  | .rawPut _ _ key _ _ | .rawDelete _ key =>
    match decodeKey key with
    | .ok (rawKey, _) => encodeBytes rawKey
    | .error _ => key

def Store.Straight (s : Store) (w : UserWrite) : Prop :=
  ∀ r ∈ s.regions, ∀ b, r.startKey = encodeBytes b → (b ≤ w.userKey ↔ b ≤ w.comparedAs)

theorem routingKey_modify (M : Marshal) (w : UserWrite) :
    routingKey (w.modify M) = w.comparedAs := by
  cases w with
  | txn m =>
    obtain ⟨ts, h⟩ := decodeKey_encoded M m
    show routingKey (m.encoded M) = encodeBytes m.key
    rw [routingKey, h]
    rfl
  | rawPut now cf key value ttl => rfl
  | rawDelete cf key => rfl

/-! ### The lookup -/

variable {key : Key} {regions : List Region} {r : Region} {best : Option (ℕ × Key)}
  {region : Region} {k : List UInt8} {w : UserWrite}

theorem resolveStep_of_not_contains (h : ¬ region.contains key)
    (best : Option (ℕ × Key)) : resolveStep key best region = best := by
  rw [Region.contains, not_and_or, not_not, not_not] at h
  unfold resolveStep
  rcases h with h | h
  · rw [if_pos h]
  · rw [if_pos h, ite_self]

theorem resolveStep_of_contains (h : region.contains key)
    (hbest : best = none ∨ best = some (region.id, region.startKey)) :
    resolveStep key best region = some (region.id, region.startKey) := by
  unfold resolveStep
  rw [if_neg h.1, if_neg h.2]
  rcases hbest with rfl | rfl
  · rfl
  · exact if_neg (lt_irrefl _)

theorem foldl_resolveStep (hall : ∀ r' ∈ regions, r'.contains key ↔ r' = r)
    (hbest : best = none ∨ best = some (r.id, r.startKey)) : regions.foldl (resolveStep key) best =
      if r ∈ regions then some (r.id, r.startKey) else best := by
  -- along the regions; once the owner is the best one, nothing replaces it
  induction regions generalizing best with
  | nil => rfl
  | cons r' regions ih =>
    have htail : ∀ x ∈ regions, x.contains key ↔ x = r := fun x hx =>
      hall x (mem_cons_of_mem r' hx)
    rw [foldl_cons]
    by_cases heq : r' = r
    · subst heq
      have hcontains := (hall r' mem_cons_self).mpr rfl
      rw [resolveStep_of_contains hcontains hbest, ih htail (.inr rfl),
        if_pos mem_cons_self, ite_self]
    · have hnot : ¬ r'.contains key := fun h => heq ((hall r' mem_cons_self).mp h)
      rw [resolveStep_of_not_contains hnot, ih htail hbest]
      simp only [mem_cons, Ne.symm heq, false_or]

theorem resolveRegionID_of_unique (hr : r ∈ regions)
    (hid : r.id ≠ 0) (hall : ∀ r' ∈ regions, r'.contains (encodeBytes k) ↔ r' = r) :
    resolveRegionID regions k = r.id := by
  have hfind : resolveRegionForKey regions (encodeLockKey k) = r.id := by
    rw [resolveRegionForKey, encodeLockKey, foldl_resolveStep hall (.inl rfl), if_pos hr]
    rfl
  rw [resolveRegionID]
  simp only [hfind]
  exact if_pos hid

variable (s : Store)

theorem Store.resolveRegionID_eq (hr : r ∈ s.regions)
    (hk : r.contains (encodeBytes k)) (hperm : regions.Perm s.regions) :
    resolveRegionID regions k = r.id := by
  refine resolveRegionID_of_unique (hperm.mem_iff.mpr hr) (s.id_ne_zero r hr) fun r' hr' => ?_
  constructor
  · intro h
    exact (s.owner k).unique ⟨hperm.mem_iff.mp hr', h⟩ ⟨hr, hk⟩
  · rintro rfl
    exact hk

theorem groupModifiesByRegion_apply (iterate : ℕ → List Region)
    (modifies : List StoreRestart.Modify) (regionID : ℕ) :
    groupModifiesByRegion iterate modifies regionID =
      (modifies.zipIdx.filter fun p =>
        resolveRegionID (iterate p.2) (routingKey p.1) = regionID).map Prod.fst := by
  -- the loop, from any groups on
  have hfold : ∀ (l : List (StoreRestart.Modify × ℕ)) (groups : ℕ → List StoreRestart.Modify),
      l.foldl
          (fun groups (p : StoreRestart.Modify × ℕ) =>
            let regionID := resolveRegionID (iterate p.2) (routingKey p.1)
            Function.update groups regionID (groups regionID ++ [p.1])) groups regionID =
        groups regionID ++
          (l.filter fun p =>
            resolveRegionID (iterate p.2) (routingKey p.1) = regionID).map Prod.fst := by
    intro l
    induction l with
    | nil => simp
    | cons p l ih =>
      intro groups
      rw [List.foldl_cons, ih]
      by_cases heq : resolveRegionID (iterate p.2) (routingKey p.1) = regionID
      · subst heq
        simp
      · simp [heq, Function.update_of_ne (Ne.symm heq)]
  exact (hfold modifies.zipIdx fun _ => []).trans (List.nil_append _)

theorem Store.group_eq (modifies : List StoreRestart.Modify) (regionID : ℕ) :
    groupModifiesByRegion s.iterate modifies regionID =
      modifies.filter fun m => resolveRegionID s.regions (routingKey m) = regionID := by
  have hsame : ∀ i k, resolveRegionID (s.iterate i) k = resolveRegionID s.regions k := by
    intro i k
    obtain ⟨r, ⟨hr, hk⟩, -⟩ := s.owner k
    rw [s.resolveRegionID_eq hr hk (s.perm_iterate i), s.resolveRegionID_eq hr hk (.refl _)]
  rw [groupModifiesByRegion_apply]
  simp only [hsame]
  have hmap := List.filter_map (f := (Prod.fst : StoreRestart.Modify × ℕ → _))
    (p := fun m => decide (resolveRegionID s.regions (routingKey m) = regionID))
    (l := modifies.zipIdx)
  rw [List.zipIdx_map_fst] at hmap
  exact hmap.symm

/-! ### Boundaries -/

theorem contains_between {a c b : Key} (ha : r.contains a) (hc : r.contains c)
    (hab : a ≤ b) (hbc : b ≤ c) : r.contains b := by
  rw [contains_iff] at ha hc ⊢
  refine ⟨ha.1.trans hab, ?_⟩
  exact hc.2.imp_right fun h => lt_of_le_of_lt hbc h

theorem Store.straight_iff (hr : r ∈ s.regions)
    (hk : r.contains (encodeBytes w.userKey)) :
    s.Straight w ↔ r.contains (encodeBytes w.comparedAs) := by
  constructor
  · intro hstraight
    obtain ⟨r', ⟨hr', hk'⟩, -⟩ := s.owner w.comparedAs
    -- both regions start at or before the smaller one of the two keys, so both have it
    have hstart : ∀ {x : Region} {a b : Key}, x ∈ s.regions → x.contains (encodeBytes a) →
        (∀ c, x.startKey = encodeBytes c → c ≤ a → c ≤ b) → x.startKey ≤ encodeBytes b := by
      intro x a b hx hxa hle
      rcases s.startKey_encoded x hx with hnil | ⟨c, hc⟩
      · rw [hnil]
        exact not_lt.mp (not_lt_nil _)
      · have hca : x.startKey ≤ encodeBytes a := (contains_iff.mp hxa).1
        rw [hc, encodeBytes_le] at hca ⊢
        exact hle c hc hca
    have h₁ := hstart hr hk fun c hc => (hstraight r hr c hc).mp
    have h₂ := hstart hr' hk' fun c hc => (hstraight r' hr' c hc).mpr
    rcases le_total w.userKey w.comparedAs with hle | hle
    · have hboth : r'.contains (encodeBytes w.userKey) := by
        rw [contains_iff] at hk' ⊢
        exact ⟨h₂, hk'.2.imp_right fun h => lt_of_le_of_lt (encodeBytes_le.mpr hle) h⟩
      rw [(s.owner w.userKey).unique ⟨hr, hk⟩ ⟨hr', hboth⟩]
      exact hk'
    · rw [contains_iff] at hk ⊢
      exact ⟨h₁, hk.2.imp_right fun h => lt_of_le_of_lt (encodeBytes_le.mpr hle) h⟩
  · intro hcompared r' hr' b hb
    -- a boundary between the keys would belong to `r`, and to the region that starts there
    have hself : r'.contains (encodeBytes b) := by
      rw [contains_iff, hb]
      exact ⟨le_rfl, hb ▸ s.startKey_lt r' hr'⟩
    have hout : ∀ {lo hi : Key}, r.contains (encodeBytes lo) → r.contains (encodeBytes hi) →
        b ≤ hi → b ≤ lo := by
      intro lo hi hlo hhi hbhi
      by_contra hlt
      have hmid : r.contains (encodeBytes b) :=
        contains_between hlo hhi (encodeBytes_le.mpr (not_le.mp hlt).le) (encodeBytes_le.mpr hbhi)
      obtain rfl := (s.owner b).unique ⟨hr, hmid⟩ ⟨hr', hself⟩
      have hle := (contains_iff.mp hlo).1
      rw [hb, encodeBytes_le] at hle
      exact hlt hle
    exact ⟨hout hcompared hk, hout hk hcompared⟩

theorem Store.owns_iff (hr : r ∈ s.regions)
    (hk : r.contains (encodeBytes w.userKey)) (regionID : ℕ) :
    s.Owns regionID w ↔ r.id = regionID := by
  constructor
  · rintro ⟨r', hr', rfl, hk'⟩
    rw [(s.owner w.userKey).unique ⟨hr, hk⟩ ⟨hr', hk'⟩]
  · rintro rfl
    exact ⟨r, hr, rfl, hk⟩

theorem Store.resolve_iff (M : Marshal) (w : UserWrite) : s.Straight w ↔ ∀ regionID,
      resolveRegionID s.regions (routingKey (w.modify M)) = regionID ↔ s.Owns regionID w := by
  obtain ⟨r, ⟨hr, hk⟩, -⟩ := s.owner w.userKey
  obtain ⟨r', ⟨hr', hk'⟩, -⟩ := s.owner w.comparedAs
  rw [s.straight_iff hr hk, routingKey_modify, s.resolveRegionID_eq hr' hk' (.refl _)]
  simp only [s.owns_iff hr hk]
  constructor
  · intro hcontains regionID
    rw [(s.owner w.comparedAs).unique ⟨hr', hk'⟩ ⟨hr, hcontains⟩]
  · intro h
    have hid : r.id = r'.id := (h r'.id).mp rfl
    rw [inj_on_of_nodup_map s.nodup_id hr hr' hid]
    exact hk'

/-- **Modifications are routed to the owners of their user keys exactly when no boundary
lies between a user key and the key it is compared as.** -/
theorem routedToOwner_iff (M : Marshal) (s : Store) (ws : List UserWrite) :
    RoutedToOwner M s ws ↔ ∀ w ∈ ws, s.Straight w := by
  constructor
  · intro h w hw
    rw [s.resolve_iff M]
    obtain ⟨r, ⟨hr, hk⟩, -⟩ := s.owner w.userKey
    -- the group of the owner has the modification, so this is where it is routed to
    have hmem : w.modify M ∈ groupModifiesByRegion s.iterate (ws.map (·.modify M)) r.id := by
      rw [h.group]
      exact mem_map_of_mem (mem_filter.mpr
        ⟨hw, decide_eq_true ((s.owns_iff hr hk r.id).mpr rfl)⟩)
    rw [s.group_eq, mem_filter, decide_eq_true_iff] at hmem
    intro regionID
    rw [hmem.2, s.owns_iff hr hk]
  · intro h
    have hgroup : ∀ regionID, groupModifiesByRegion s.iterate (ws.map (·.modify M)) regionID =
        (ws.filter fun w => s.Owns regionID w).map (·.modify M) := by
      intro regionID
      rw [s.group_eq, filter_map]
      congr 1
      apply filter_congr
      intro w hw
      exact decide_eq_decide.mpr ((s.resolve_iff M w).mp (h w hw) regionID)
    refine ⟨hgroup, ?_⟩
    intro w hw w' hw' hkey regionID
    have hmem : ∀ x ∈ ws, x.modify M ∈ groupModifiesByRegion s.iterate (ws.map (·.modify M)) regionID
        ↔ s.Owns regionID x := by
      intro x hx
      rw [s.group_eq, mem_filter, decide_eq_true_iff]
      exact (and_iff_right (mem_map_of_mem hx)).trans ((s.resolve_iff M x).mp (h x hx) regionID)
    rw [hmem w hw, hmem w' hw', Store.Owns, Store.Owns, hkey]

def leftRegion (b : Key) : Region := { id := 1, endKey := encodeBytes b }

def rightRegion (b : Key) : Region := { id := 2, startKey := encodeBytes b }

theorem leftRegion_contains (b k : Key) : (leftRegion b).contains (encodeBytes k) ↔ k < b := by
  rw [contains_iff, leftRegion, encodeBytes_lt]
  constructor
  · intro h
    exact h.2.resolve_left (encodeBytes_ne_nil b)
  · intro h
    exact ⟨not_lt.mp (not_lt_nil _), .inr h⟩

theorem rightRegion_contains (b k : Key) : (rightRegion b).contains (encodeBytes k) ↔ b ≤ k := by
  rw [contains_iff, rightRegion, encodeBytes_le]
  simp

def twoRegions (b : Key) : Store where
  regions := [leftRegion b, rightRegion b]
  nodup_id := by simp [leftRegion, rightRegion]
  id_ne_zero := by simp [leftRegion, rightRegion]
  startKey_encoded := by simp [leftRegion, rightRegion]
  endKey_encoded := by simp [leftRegion, rightRegion]
  startKey_lt := by
    have hlt : ([] : Key) < encodeBytes b :=
      lt_of_le_of_ne (not_lt.mp (List.not_lt_nil _)) (encodeBytes_ne_nil b).symm
    simpa [leftRegion, rightRegion] using Or.inr hlt
  owner k := by
    rcases lt_or_ge k b with hlt | hge
    · refine ⟨leftRegion b, ⟨by simp, (leftRegion_contains b k).mpr hlt⟩, ?_⟩
      rintro r ⟨hr, hk⟩
      rcases List.mem_pair.mp hr with rfl | rfl
      · rfl
      · exact absurd hlt ((rightRegion_contains b k).mp hk).not_gt
    · refine ⟨rightRegion b, ⟨by simp, (rightRegion_contains b k).mpr hge⟩, ?_⟩
      rintro r ⟨hr, hk⟩
      rcases List.mem_pair.mp hr with rfl | rfl
      · exact absurd ((leftRegion_contains b k).mp hk) hge.not_gt
      · rfl
  iterate _ := [leftRegion b, rightRegion b]
  perm_iterate _ := .refl _

/-- **The key `a` belongs to the region that ends at `a\0`, but goes to the one behind it**,
whose start is not above the encoded key. -/
theorem first_key_misrouted : (leftRegion [0x61, 0]).contains (encodeBytes [0x61]) ∧
      groupModifiesByRegion (twoRegions [0x61, 0]).iterate
        ([UserWrite.txn (.unlockKey [0x61])].map (·.modify ⟨fun _ => [], fun _ => []⟩)) 2 =
        [.delete .lock (encodeLockKey [0x61])] ∧
      ¬ RoutedToOwner ⟨fun _ => [], fun _ => []⟩ (twoRegions [0x61, 0])
        [UserWrite.txn (.unlockKey [0x61])] := by
  refine ⟨(leftRegion_contains _ _).mpr (by decide), by decide, ?_⟩
  intro h
  have hgroup := h.group 1
  revert hgroup
  decide

end Routing
