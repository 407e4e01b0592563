/-
What PD remembers after a restart.

The committed commands are applied twice and the uncommitted tail once; when a prefix of the log is
gone nothing is.
-/
import Gookv.PdReplay
import Gookv.PdEffects

namespace Pd

open List Option State

variable (s : State)

/-! ### When the recovered state is the committed one -/

structure Blank (es : List Entry) : Prop where
  noIDAlloc : ∀ n, some (Command.idAlloc n) ∉ es
  safePoint : maxSafePoint es = 0
  bootstrapped : LastWrite bootstrapWrite es ≠ some true
  stores : ∀ e ∈ es, storeOf e = none
  regions : ∀ e ∈ es, regionOf e = none

/-- A second pass over the committed entries changes nothing: no ids, no higher safe point, no store
or flag that they do not put again, and each region comes out of `PutRegion` as it went in. -/
structure Repeatable (committed tail : List Entry) : Prop where
  noIDAlloc : ∀ n, some (Command.idAlloc n) ∉ committed ++ tail
  safePoint : maxSafePoint tail ≤ maxSafePoint committed
  bootstrapped : LastWrite bootstrapWrite committed = none →
    LastWrite bootstrapWrite tail ≠ some true
  stores : ∀ id, LastWrite (storeWrite id) committed = none → LastWrite (storeWrite id) tail = none
  regions : ∀ id, committed.foldl (regionStep id)
    (tail.foldl (regionStep id) (regionAfter committed id)) = regionAfter committed id

structure Traceless (committed tail : List Entry) : Prop where
  bootstrapped : ∀ b, LastWrite bootstrapWrite tail = some b →
    (LastWrite bootstrapWrite committed).getD false = b
  stores : ∀ id store, LastWrite (storeWrite id) tail = some store →
    LastWrite (storeWrite id) committed = some store
  regions : ∀ id, tail.foldl (regionStep id) (regionAfter committed id) = regionAfter committed id

theorem applyAll_append (l m : List Entry) : s.applyAll (l ++ m) = (s.applyAll l).applyAll m :=
  foldl_append

theorem State.eq_of_parts {s t : State} (hboot : s.bootstrapped = t.bootstrapped)
    (hstores : ∀ id, s.stores id = t.stores id)
    (hregions : ∀ id, (s.regions id, s.leaders id) = (t.regions id, t.leaders id))
    (hids : s.nextID = t.nextID) (hsafe : s.safePoint = t.safePoint) : s = t :=
  State.ext hboot (funext hstores) (funext fun id => congrArg Prod.fst (hregions id))
    (funext fun id => congrArg Prod.snd (hregions id)) hids hsafe

theorem State.parts_of_eq {s t : State} (h : s = t) (id : ℕ) :
    (s.regions id, s.leaders id) = (t.regions id, t.leaders id) := by
  rw [h]

theorem applyAll_region_initial (committed : List Entry) (id : ℕ) :
    ((State.initial.applyAll committed).regions id, (State.initial.applyAll committed).leaders id) =
      regionAfter committed id :=
  applyAll_region committed .initial id

theorem blank_iff (es : List Entry) : State.initial = State.initial.applyAll es ↔ Blank es := by
  constructor
  · intro h
    have hids := congrArg nextID h
    have hsafe := congrArg safePoint h
    have hboot := congrArg bootstrapped h
    rw [applyAll_nextID, left_eq_add] at hids
    rw [applyAll_safePoint] at hsafe
    rw [applyAll_bootstrapped] at hboot
    refine ⟨sum_allocated_eq_zero.mp hids, ?_, fun htrue => ?_, ?_, ?_⟩
    · have hle := le_max_right initial.safePoint (maxSafePoint es)
      rw [← hsafe] at hle
      exact Nat.le_zero.mp hle
    · rw [htrue] at hboot
      exact absurd hboot (by decide)
    · refine storeWrites_eq_none.mp fun id => ?_
      have hstore := congrFun (congrArg stores h) id
      rw [applyAll_stores] at hstore
      exact (or_eq_none_iff.mp hstore.symm).1
    · refine regionAfter_eq_none.mp fun id => ?_
      exact (applyAll_region_initial es id).symm.trans (parts_of_eq h id).symm
  · intro h
    refine eq_of_parts ?_ (fun id => ?_) (fun id => ?_) ?_ ?_
    · rw [applyAll_bootstrapped]
      cases hlast : LastWrite bootstrapWrite es with
      | none => rfl
      | some b =>
        cases b with
        | false => rfl
        | true => exact absurd hlast h.bootstrapped
    · rw [applyAll_stores, storeWrites_eq_none.mpr h.stores]
      rfl
    · rw [applyAll_region_initial, regionAfter_eq_none.mpr h.regions]
      rfl
    · rw [applyAll_nextID, sum_allocated_eq_zero.mpr h.noIDAlloc]
      rfl
    · rw [applyAll_safePoint, h.safePoint]
      rfl

theorem repeatable_iff (committed tail : List Entry) :
    (State.initial.applyAll (committed ++ tail)).applyAll committed =
      State.initial.applyAll committed ↔ Repeatable committed tail := by
  have hregion : ∀ id, committed.foldl (regionStep id)
      (tail.foldl (regionStep id) (regionAfter committed id)) =
        (((initial.applyAll (committed ++ tail)).applyAll committed).regions id,
          ((initial.applyAll (committed ++ tail)).applyAll committed).leaders id) := by
    intro id
    rw [applyAll_region, applyAll_append, applyAll_region, applyAll_region_initial]
  constructor
  · intro h
    have hids := congrArg nextID h
    have hsafe := congrArg safePoint h
    have hboot := congrArg bootstrapped h
    rw [applyAll_nextID, applyAll_nextID, applyAll_nextID, map_append, sum_append] at hids
    rw [applyAll_safePoint, applyAll_append, applyAll_safePoint, applyAll_safePoint] at hsafe
    rw [applyAll_bootstrapped, applyAll_append, applyAll_bootstrapped, applyAll_bootstrapped] at hboot
    refine ⟨sum_allocated_eq_zero.mp ?_, ?_, fun hnone htrue => ?_, fun id hnone => ?_, fun id => ?_⟩
    · rw [map_append, sum_append]
      omega
    · have hzero : initial.safePoint = 0 := rfl
      rw [hzero] at hsafe
      omega
    · rw [hnone, htrue] at hboot
      exact absurd hboot (by decide)
    · have hstore := congrFun (congrArg stores h) id
      rw [applyAll_stores, applyAll_append, applyAll_stores, applyAll_stores, hnone,
        none_or] at hstore
      exact (or_eq_none_iff.mp hstore).1
    · rw [hregion id, parts_of_eq h id, applyAll_region_initial]
  · intro h
    have hids := sum_allocated_eq_zero.mpr h.noIDAlloc
    rw [map_append, sum_append] at hids
    refine eq_of_parts ?_ (fun id => ?_) (fun id => ?_) ?_ ?_
    · rw [applyAll_bootstrapped, applyAll_append, applyAll_bootstrapped, applyAll_bootstrapped]
      cases hlast : LastWrite bootstrapWrite committed with
      | some b => rfl
      | none =>
        cases htail : LastWrite bootstrapWrite tail with
        | none => rfl
        | some b =>
          cases b with
          | false => rfl
          | true => exact absurd htail (h.bootstrapped hlast)
    · rw [applyAll_stores, applyAll_append, applyAll_stores, applyAll_stores]
      cases hlast : LastWrite (storeWrite id) committed with
      | some store => rfl
      | none =>
        rw [h.stores id hlast]
        rfl
    · rw [← hregion id, h.regions id, applyAll_region_initial]
    · rw [applyAll_nextID, applyAll_nextID, applyAll_nextID, map_append, sum_append]
      omega
    · have hle := h.safePoint
      rw [applyAll_safePoint, applyAll_append, applyAll_safePoint, applyAll_safePoint]
      omega

theorem traceless_iff {committed tail : List Entry} (h : Repeatable committed tail) :
    State.initial.applyAll (committed ++ tail) = State.initial.applyAll committed ↔
      Traceless committed tail := by
  rw [applyAll_append]
  have hregion : ∀ id, tail.foldl (regionStep id) (regionAfter committed id) =
      (((initial.applyAll committed).applyAll tail).regions id,
        ((initial.applyAll committed).applyAll tail).leaders id) := by
    intro id
    rw [applyAll_region, applyAll_region_initial]
  constructor
  · intro heq
    have hboot := congrArg bootstrapped heq
    rw [applyAll_bootstrapped tail, applyAll_bootstrapped] at hboot
    refine ⟨fun b hb => ?_, fun id store hlast => ?_, fun id => ?_⟩
    · rw [hb] at hboot
      exact hboot.symm
    · have hstore := congrFun (congrArg stores heq) id
      rw [applyAll_stores tail, applyAll_stores, hlast, some_or] at hstore
      exact (hstore.trans (or_none ..)).symm
    · rw [hregion id, parts_of_eq heq id, applyAll_region_initial]
  · intro htrace
    have hids := sum_allocated_eq_zero.mpr h.noIDAlloc
    rw [map_append, sum_append] at hids
    refine eq_of_parts ?_ (fun id => ?_) (fun id => ?_) ?_ ?_
    · rw [applyAll_bootstrapped tail]
      cases hlast : LastWrite bootstrapWrite tail with
      | none => rfl
      | some b =>
        rw [applyAll_bootstrapped]
        exact (htrace.bootstrapped b hlast).symm
    · rw [applyAll_stores tail]
      cases hlast : LastWrite (storeWrite id) tail with
      | none => rfl
      | some store =>
        rw [applyAll_stores, htrace.stores id store hlast]
        rfl
    · rw [← hregion id, htrace.regions id, applyAll_region_initial]
    · rw [applyAll_nextID tail]
      omega
    · have hle := h.safePoint
      rw [applyAll_safePoint tail, applyAll_safePoint]
      omega

def RecoversExactly (p : Persisted) : Prop :=
  ∃ s, p.boot = .ok s ∧ ∀ ran ⊆ s.background,
    ((s.runDeletions ran).redeliver p.committed.length).state = p.committedState

structure Recoverable (p : Persisted) : Prop where
  blank : p.deleted ≠ 0 → Blank p.committed
  repeatable : p.deleted = 0 → Repeatable p.committed p.tail
  traceless : p.deleted = 0 → (∃ e ∈ p.committed ++ p.tail, compacts e) →
    Traceless p.committed p.tail

theorem recoversExactly_iff_forall {p : Persisted} {s : Server} (hboot : p.boot = .ok s)
    (hstate : s.state = State.initial.applyAll p.replayed) (hengine : s.storage.engine = p.disk)
    (htrunc : s.storage.applyState.truncatedIndex = 0) (hok : ServerOk (p.committed ++ p.tail) s) :
    RecoversExactly p ↔ ∀ ran ⊆ s.background,
      (State.initial.applyAll p.replayed).applyAll
        (if p.deleted = 0 ∧ ran = [] then p.committed else []) = p.committedState := by
  have hdelivered : ∀ ran ⊆ s.background,
      ((s.runDeletions ran).redeliver p.committed.length).state =
        (initial.applyAll p.replayed).applyAll
          (if p.deleted = 0 ∧ ran = [] then p.committed else []) :=
    fun ran hran => hstate ▸ p.redeliver_spec hengine htrunc hok hran
  constructor
  · rintro ⟨s', hboot', hall⟩ ran hran
    obtain rfl : s = s' := Except.ok.inj (hboot.symm.trans hboot')
    exact (hdelivered ran hran).symm.trans (hall ran hran)
  · exact fun hall => ⟨s, hboot, fun ran hran => (hdelivered ran hran).trans (hall ran hran)⟩

theorem recoversExactly_iff_blank {p : Persisted} (hdeleted : p.deleted ≠ 0) :
    RecoversExactly p ↔ Blank p.committed := by
  obtain ⟨s, hboot, hstate, hengine, htrunc, hok, -⟩ := p.boot_spec
  have hnothing : ∀ ran : List ℕ, (initial.applyAll p.replayed).applyAll
      (if p.deleted = 0 ∧ ran = [] then p.committed else []) = initial := by
    intro ran
    rw [Persisted.replayed, if_neg hdeleted, if_neg fun hboth => hdeleted hboth.1]
    rfl
  rw [recoversExactly_iff_forall hboot hstate hengine htrunc hok]
  constructor
  · intro hall
    have hfirst := hall [] (nil_subset _)
    rw [hnothing] at hfirst
    exact (blank_iff _).mp hfirst
  · intro hblank ran _
    rw [hnothing]
    exact (blank_iff _).mpr hblank

theorem recoversExactly_iff_repeatable {p : Persisted} (hdeleted : p.deleted = 0) :
    RecoversExactly p ↔ Repeatable p.committed p.tail ∧
      ((∃ e ∈ p.committed ++ p.tail, compacts e) → Traceless p.committed p.tail) := by
  obtain ⟨s, hboot, hstate, hengine, htrunc, hok, hbackground⟩ := p.boot_spec
  rw [recoversExactly_iff_forall hboot hstate hengine htrunc hok]
  have hreplayed : p.replayed = p.committed ++ p.tail := if_pos hdeleted
  rw [hreplayed] at hbackground ⊢
  constructor
  · intro hall
    have hfirst := hall [] (nil_subset _)
    rw [if_pos ⟨hdeleted, rfl⟩] at hfirst
    have hrepeat := (repeatable_iff _ _).mp hfirst
    refine ⟨hrepeat, fun ⟨e, he, hcompacts⟩ => ?_⟩
    have hne : s.background ≠ [] := fun hnil => hbackground.mp hnil e he hcompacts
    have hlast := hall s.background (Subset.refl _)
    rw [if_neg fun hboth => hne hboth.2] at hlast
    exact (traceless_iff hrepeat).mp hlast
  · rintro ⟨hrepeat, htraceless⟩ ran hran
    by_cases hnil : ran = []
    · rw [if_pos ⟨hdeleted, hnil⟩]
      exact (repeatable_iff _ _).mpr hrepeat
    · rw [if_neg fun hboth => hnil hboth.2]
      refine (traceless_iff hrepeat).mpr (htraceless ?_)
      by_contra hnone
      have hback := hbackground.mpr fun e he hcompacts => hnone ⟨e, he, hcompacts⟩
      exact hnil (subset_nil.mp (hback ▸ hran))

/-- **PD recovers its committed state exactly under this condition.** -/
theorem recoversExactly_iff (p : Persisted) : RecoversExactly p ↔ Recoverable p := by
  by_cases hdeleted : p.deleted = 0
  · rw [recoversExactly_iff_repeatable hdeleted]
    constructor
    · rintro ⟨hrepeat, htraceless⟩
      exact ⟨fun hne => absurd hdeleted hne, fun _ => hrepeat, fun _ => htraceless⟩
    · exact fun hrec => ⟨hrec.repeatable hdeleted, hrec.traceless hdeleted⟩
  · rw [recoversExactly_iff_blank hdeleted]
    constructor
    · exact fun hblank => ⟨fun _ => hblank, fun h => absurd h hdeleted, fun h => absurd h hdeleted⟩
    · exact fun hrec => hrec.blank hdeleted

def oneAllocation : Persisted := ⟨[some (.idAlloc 1)], [], 0, .inl rfl⟩

theorem recoversTwice : oneAllocation.committedState.nextID = 1001 ∧
    (∃ s, oneAllocation.boot = .ok s ∧ s.background = [] ∧
      ((s.runDeletions []).redeliver 1).state.nextID = 1002) ∧ ¬ RecoversExactly oneAllocation := by
  refine ⟨rfl, ⟨_, rfl, rfl, rfl⟩, ?_⟩
  rintro ⟨s, hboot, hall⟩
  have hids := congrArg nextID (hall [] (nil_subset _))
  cases hboot
  exact absurd hids (by decide)

end Pd
