/-
What a log of PD commands leaves in memory, part by part.

The flag and the stores hold the last value written, the id counter is a sum and the safe point a
maximum; a region depends on what came before it, since an older epoch is discarded.
-/
import Gookv.LastWrite
import Gookv.PdServer

namespace Pd

open LastWrite List Option State

/-! ### What entries do to each part of the state -/

/-- The value an entry gives to the bootstrapped flag. -/
def bootstrapWrite : Entry → Option Bool
  | some (.setBootstrapped (some b) _ _ _) => some b
  | _ => none

/-- The store that an entry puts. -/
def storeOf : Entry → Option Store
  | some (.setBootstrapped (some _) store _ _) => store
  | some (.putStore store) => store
  | _ => none

def storeWrite (id : ℕ) (e : Entry) : Option Store := (storeOf e).filter fun store => store.id = id

/-- The region, with its leader, that an entry puts. -/
def regionOf : Entry → Option (Region × Option Peer)
  | some (.setBootstrapped (some _) _ region leader) => region.map fun r => (r, leader)
  | some (.putRegion region leader) => region.map fun r => (r, leader)
  | _ => none

/-- `PutRegion`, seen from one region id. -/
def regionStep (id : ℕ) (st : Option Region × Option Peer) (e : Entry) :
    Option Region × Option Peer :=
  match regionOf e with
  | none => st
  | some (region, leader) =>
    if region.id = id then
      if st.1.any fun existing => stale existing region then st
      else (some region, leader.or st.2)
    else st

def allocated : Entry → ℕ
  | some (.idAlloc batchSize) => batchOf batchSize
  | _ => 0

def safePointOf : Entry → ℕ
  | some (.updateGCSafePoint safePoint) => safePoint
  | _ => 0

/-- The highest safe point among some entries. -/
def maxSafePoint (es : List Entry) : ℕ := (es.map safePointOf).foldr max 0

theorem State.putStore_stores (s : State) (store : Option Store) (id : ℕ) :
    (s.putStore store).stores id = (store.filter fun st => st.id = id).or (s.stores id) := by
  cases store with
  | none => rfl
  | some store =>
    dsimp only [putStore]
    by_cases hid : store.id = id
    · rw [if_pos hid.symm, filter_some_pos (by simpa using hid), some_or]
    · rw [if_neg (Ne.symm hid), filter_some_neg (by simpa using hid), none_or]

theorem State.putRegion_other (s : State) (region : Option Region) (leader : Option Peer) :
    (s.putRegion region leader).bootstrapped = s.bootstrapped ∧
      (s.putRegion region leader).stores = s.stores ∧
      (s.putRegion region leader).nextID = s.nextID ∧
      (s.putRegion region leader).safePoint = s.safePoint := by
  cases region with
  | none => exact ⟨rfl, rfl, rfl, rfl⟩
  | some region =>
    dsimp only [putRegion]
    split <;> exact ⟨rfl, rfl, rfl, rfl⟩

theorem State.putRegion_at (s : State) (region : Option Region) (leader : Option Peer) (id : ℕ) :
    ((s.putRegion region leader).regions id, (s.putRegion region leader).leaders id) =
      regionStep id (s.regions id, s.leaders id) (some (.putRegion region leader)) := by
  cases region with
  | none => rfl
  | some region =>
    dsimp only [putRegion, regionStep, regionOf, map_some]
    by_cases hid : region.id = id
    · subst hid
      rw [if_pos rfl]
      split
      · rfl
      · simp
    · rw [if_neg hid]
      split
      · rfl
      · dsimp only
        rw [if_neg (Ne.symm hid), if_neg (Ne.symm hid)]

theorem State.applyEntry_bootstrapped (s : State) (e : Entry) :
    (s.applyEntry e).bootstrapped = (bootstrapWrite e).getD s.bootstrapped := by
  rcases e with _ | ⟨_ | b, store, region, leader⟩ | store | ⟨region, leader⟩ | _ | _ | _ | _
  · rfl
  · rfl
  · refine (putRegion_other _ region leader).1.trans ?_
    cases store <;> rfl
  · cases store <;> rfl
  · exact (putRegion_other s region leader).1
  all_goals rfl

theorem State.applyEntry_stores (s : State) (e : Entry) (id : ℕ) :
    (s.applyEntry e).stores id = (storeWrite id e).or (s.stores id) := by
  rcases e with _ | ⟨_ | b, store, region, leader⟩ | store | ⟨region, leader⟩ | _ | _ | _ | _
  · rfl
  · rfl
  · refine (congrFun (putRegion_other _ region leader).2.1 id).trans ?_
    exact putStore_stores _ store id
  · exact putStore_stores s store id
  · exact congrFun (putRegion_other s region leader).2.1 id
  all_goals rfl

theorem State.applyEntry_nextID (s : State) (e : Entry) :
    (s.applyEntry e).nextID = s.nextID + allocated e := by
  rcases e with _ | ⟨_ | b, store, region, leader⟩ | store | ⟨region, leader⟩ | _ | _ | _ | _
  · rfl
  · rfl
  · refine (putRegion_other _ region leader).2.2.1.trans ?_
    cases store <;> rfl
  · cases store <;> rfl
  · exact (putRegion_other s region leader).2.2.1
  all_goals rfl

theorem State.applyEntry_safePoint (s : State) (e : Entry) :
    (s.applyEntry e).safePoint = max s.safePoint (safePointOf e) := by
  rcases e with _ | ⟨_ | b, store, region, leader⟩ | store | ⟨region, leader⟩ | _ | sp | _ | _
  · exact (Nat.max_zero _).symm
  · exact (Nat.max_zero _).symm
  · refine (putRegion_other _ region leader).2.2.2.trans ?_
    cases store <;> exact (Nat.max_zero _).symm
  · cases store <;> exact (Nat.max_zero _).symm
  · exact (putRegion_other s region leader).2.2.2.trans (Nat.max_zero _).symm
  · exact (Nat.max_zero _).symm
  · change (if s.safePoint < sp then sp else s.safePoint) = max s.safePoint sp
    split <;> omega
  all_goals exact (Nat.max_zero _).symm

theorem State.applyEntry_region (s : State) (e : Entry) (id : ℕ) :
    ((s.applyEntry e).regions id, (s.applyEntry e).leaders id) =
      regionStep id (s.regions id, s.leaders id) e := by
  rcases e with _ | ⟨_ | b, store, region, leader⟩ | store | ⟨region, leader⟩ | _ | _ | _ | _
  · rfl
  · rfl
  · refine (putRegion_at _ region leader id).trans ?_
    cases store <;> rfl
  · cases store <;> rfl
  · exact putRegion_at s region leader id
  all_goals rfl

variable (es : List Entry) (s : State)

theorem applyAll_bootstrapped :
    (s.applyAll es).bootstrapped = (LastWrite bootstrapWrite es).getD s.bootstrapped := by
  rw [← foldl_getD, applyAll]
  induction es generalizing s with
  | nil => rfl
  | cons e es ih => rw [foldl_cons, foldl_cons, ih, applyEntry_bootstrapped]

theorem applyAll_stores (id : ℕ) :
    (s.applyAll es).stores id = (LastWrite (storeWrite id) es).or (s.stores id) := by
  rw [State.applyAll]
  induction es generalizing s with
  | nil => rfl
  | cons e es ih =>
    rw [List.foldl_cons, ih, State.applyEntry_stores, LastWrite.cons, Option.or_assoc]

theorem applyAll_nextID : (s.applyAll es).nextID = s.nextID + (es.map allocated).sum := by
  rw [applyAll]
  induction es generalizing s with
  | nil => rfl
  | cons e es ih =>
    rw [foldl_cons, ih, applyEntry_nextID, map_cons, sum_cons, Nat.add_assoc]

theorem applyAll_safePoint : (s.applyAll es).safePoint = max s.safePoint (maxSafePoint es) := by
  rw [applyAll]
  induction es generalizing s with
  | nil => exact (Nat.max_zero _).symm
  | cons e es ih =>
    rw [foldl_cons, ih, applyEntry_safePoint, max_assoc]
    rfl

theorem applyAll_region (id : ℕ) : ((s.applyAll es).regions id, (s.applyAll es).leaders id) =
      es.foldl (regionStep id) (s.regions id, s.leaders id) := by
  rw [applyAll]
  induction es generalizing s with
  | nil => rfl
  | cons e es ih => rw [foldl_cons, foldl_cons, ih, applyEntry_region]

theorem batchOf_pos (batchSize : ℤ) : 0 < batchOf batchSize := by
  unfold batchOf
  split <;> omega

theorem sum_allocated_eq_zero {es : List Entry} :
    (es.map allocated).sum = 0 ↔ ∀ n, some (Command.idAlloc n) ∉ es := by
  rw [sum_eq_zero_iff]
  constructor
  · intro h n hmem
    have hzero := h _ (mem_map_of_mem hmem)
    exact absurd hzero (batchOf_pos n).ne'
  · intro h n hn
    obtain ⟨e, he, rfl⟩ := mem_map.mp hn
    unfold allocated
    split
    · exact absurd he (h _)
    · rfl

theorem storeWrites_eq_none {es : List Entry} :
    (∀ id, LastWrite (storeWrite id) es = none) ↔ ∀ e ∈ es, storeOf e = none := by
  constructor
  · intro h e he
    cases hstore : storeOf e with
    | none => rfl
    | some store =>
      have hskip := eq_none_iff.mp (h store.id) e he
      rw [storeWrite, hstore, filter_some_pos (by simp)] at hskip
      cases hskip
  · intro h id
    refine eq_none_iff.mpr fun e he => ?_
    rw [storeWrite, h e he, filter_none]

/-- What some entries leave of a region. -/
def regionAfter (es : List Entry) (id : ℕ) : Option Region × Option Peer :=
  es.foldl (regionStep id) (none, none)

theorem regionStep_isSome {id : ℕ} {st : Option Region × Option Peer} (e : Entry)
    (h : st.1.isSome) : (regionStep id st e).1.isSome := by
  unfold regionStep
  split
  · exact h
  · split
    · split
      · exact h
      · rfl
    · exact h

theorem foldl_regionStep_isSome (id : ℕ) {st : Option Region × Option Peer} (es : List Entry)
    (h : st.1.isSome) : (es.foldl (regionStep id) st).1.isSome := by
  induction es generalizing st with
  | nil => exact h
  | cons e es ih => exact ih (regionStep_isSome e h)

theorem regionAfter_eq_none {es : List Entry} :
    (∀ id, regionAfter es id = (none, none)) ↔ ∀ e ∈ es, regionOf e = none := by
  induction es with
  | nil => exact ⟨fun _ _ he => (by cases he), fun _ _ => rfl⟩
  | cons e es ih =>
    rw [forall_mem_cons, ← ih]
    constructor
    · intro h
      have hskip : regionOf e = none := by
        cases hput : regionOf e with
        | none => rfl
        | some put =>
          have hfirst : regionStep put.1.id (none, none) e = (some put.1, put.2.or none) := by
            simp only [regionStep, hput, if_pos, any_none, Bool.false_eq_true, if_false]
          have hstored : (regionStep put.1.id (none, none) e).1.isSome := by rw [hfirst]; rfl
          have hstays := foldl_regionStep_isSome put.1.id es hstored
          have hnone : es.foldl (regionStep put.1.id) (regionStep put.1.id (none, none) e) =
              (none, none) := h put.1.id
          rw [hnone] at hstays
          cases hstays
      refine ⟨hskip, fun id => ?_⟩
      have hrest := h id
      rwa [regionAfter, foldl_cons, regionStep, hskip] at hrest
    · rintro ⟨hskip, h⟩ id
      rw [regionAfter, foldl_cons, regionStep, hskip]
      exact h id

end Pd
