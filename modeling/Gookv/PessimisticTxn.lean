/-
The life of a write in a pessimistic transaction: lock, prewrite, commit.
-/
import Gookv.Commands

open Txntypes Mvcc Txn Storage

namespace PessimisticTxn

open Function Option Versions

def expected (m : Mutation) : Option Value :=
  match m.op with
  | .put => some (m.value.getD [])
  | _ => none

def Quiet (r : Row) (c ts : TimeStamp) : Prop :=
  ∀ q ∈ r.writes.entries, q.2.isDataChanged → ¬(c < q.1 ∧ q.1 ≤ ts)

def ReadsBack (s : Store) (k : Key) (c : TimeStamp) (value : Option Value) : Prop :=
  ∀ pg : PointGetter, c ≤ pg.ts → Quiet (s k) c pg.ts → pg.get s k = .ok value

def earlierOutcome (s : Store) (k : Key) (t c : TimeStamp) : Row :=
  match (lockOf s k t).filter fun lock => lock.lockType ≠ .pessimistic with
  | some lock => { s k with writes := (s k).writes.put c (commitWrite lock).reload }
  | none => s k

def Held (s : Store) (k : Key) (t c : TimeStamp) (value : Option Value) : Prop :=
  let s' := update s k (earlierOutcome s k t c)
  ∀ ts, c ≤ ts → Quiet (s' k) c ts → visibleValue s' k ts = value

section
variable {s : Store} {k : Key} {t c : TimeStamp} {ms : List Modify} {lock : Lock}

theorem acquire_row {props : PessimisticLockProps} (h : acquirePessimisticLock s props k = .ok ms) :
    ∃ lock, applyModifies s ms k = { s k with lock := some lock } ∧
      lock.startTS = props.startTS ∧
      ((lockOf s k props.startTS).filter fun l => l.lockType ≠ .pessimistic) =
        if lock.lockType = .pessimistic then none else some lock := by
  unfold acquirePessimisticLock loadLock at h
  cases hl : (s k).lock with
  | none =>
    simp only [hl] at h
    split at h
    · cases h
    · obtain rfl := Except.ok.inj h
      refine ⟨props.lock.reload, ?_, rfl, by simp [lockOf, hl, PessimisticLockProps.lock]⟩
      rw [applyModifies_of_forall_eq (by simp [Modify.key])]
      rfl
  | some lock =>
    simp only [hl] at h
    split at h
    · rename_i ht
      have hlo : lockOf s k props.startTS = some lock := lockOf_eq_some.mpr ⟨hl, ht⟩
      split at h
      · rename_i hp
        obtain rfl := Except.ok.inj h
        refine ⟨{ lock with forUpdateTS := props.forUpdateTS }.reload, ?_, ht,
          by simp [hlo, hp.1, Option.filter]⟩
        rw [applyModifies_of_forall_eq (by simp [Modify.key])]
        rfl
      · obtain rfl := Except.ok.inj h
        refine ⟨lock, by rw [applyModifies_nil, ← hl], ht, ?_⟩
        by_cases hp : lock.lockType = .pessimistic <;> simp [hlo, hp, Option.filter]
    · cases h

theorem prewrite_row {muts : List Mutation} {primary : Key} {ttl : UInt64}
    (hl : (s k).lock = some lock) : (Storage.prewrite s muts primary t ttl).2 k = s k := by
  have hrun : prewrite s muts primary t ttl =
      ((prewrite s muts primary t ttl).1, (prewrite s muts primary t ttl).2) := rfl
  rcases runEach_eq hrun with ⟨-, hs⟩ | ⟨-, hok, hs⟩
  · rw [hs]
  · rw [hs]
    refine applyModifies_of_forall_ne fun x hx hxk => ?_
    obtain ⟨m, hm, hxm⟩ := List.mem_flatMap.mp hx
    rcases prewrite_ok (hok m hm) with ⟨_, -, -, hnil⟩ | ⟨hnone, -, hturn⟩
    · rw [hnil] at hxm
      cases hxm
    · have hmk : m.key = k := (hturn.1 x hxm).symm.trans hxk
      rw [hmk, hl] at hnone
      cases hnone

theorem commit_row (hl : (s k).lock = some lock) (h : Txn.commit s k t c = .ok ms) :
    applyModifies s ms k = if lock.lockType = .pessimistic then { s k with lock := none }
      else committed (s k) lock c := by
  obtain ⟨lock', hl', -, -, hp | hp⟩ := commit_ok h
  · obtain rfl := some.inj (hl'.symm.trans hl)
    rw [if_pos hp.1, hp.2.applyModifies_eq, update_self]
  · obtain rfl := some.inj (hl'.symm.trans hl)
    rw [if_neg hp.1, hp.2.applyModifies_eq, update_self]

end

/-- **What a pessimistic transaction has written** after all three steps succeeded can
be read exactly if it was there without the mutation. -/
theorem readsBack_iff_held {s s₂ : Store} {k primary : Key} {t c : TimeStamp} {ttl : UInt64}
    {props : PessimisticLockProps} {m : Mutation} {muts : List Mutation}
    {ms₁ ms₃ : List Modify} {errs : List (Option TxnError)}
    (hprops : props.startTS = t) (_hk : m.key = k) (_hop : m.op ≠ .lock) (_hm : m ∈ muts)
    (hacquire : acquirePessimisticLock s props k = .ok ms₁)
    (hprewrite : Storage.prewrite (applyModifies s ms₁) muts primary t ttl = (errs, s₂))
    (_herrs : ∀ e ∈ errs, e = none) (hcommit : Txn.commit s₂ k t c = .ok ms₃) :
    ReadsBack (applyModifies s₂ ms₃) k c (expected m) ↔ Held s k t c (expected m) := by
  obtain ⟨lock, hrow₁, hlt, hlock⟩ := acquire_row hacquire
  subst hprops
  have hl₁ : (applyModifies s ms₁ k).lock = some lock := by rw [hrow₁]
  have hrow₂ : s₂ k = { s k with lock := some lock } := by
    have hs₂ : (prewrite (applyModifies s ms₁) muts primary props.startTS ttl).2 = s₂ := by
      rw [hprewrite]
    rw [← hs₂, prewrite_row hl₁, hrow₁]
  have hl₂ : (s₂ k).lock = some lock := by rw [hrow₂]
  have hrow₃ := commit_row hl₂ hcommit
  -- up to the lock, the row is the one without the mutation
  have hw : (applyModifies s₂ ms₃ k).writes = (earlierOutcome s k props.startTS c).writes := by
    rw [hrow₃, earlierOutcome, hlock, hrow₂]
    by_cases hp : lock.lockType = .pessimistic <;> simp [hp]
  have hv : (applyModifies s₂ ms₃ k).values = (earlierOutcome s k props.startTS c).values := by
    rw [hrow₃, earlierOutcome, hlock, hrow₂]
    by_cases hp : lock.lockType = .pessimistic <;> simp [hp]
  have hl₃ : (applyModifies s₂ ms₃ k).lock = none := by
    rw [hrow₃]
    split <;> rfl
  have hvis : ∀ ts, visibleValue (applyModifies s₂ ms₃) k ts =
      visibleValue (update s k (earlierOutcome s k props.startTS c)) k ts :=
    visibleValue_of_row (by rw [update_self, hw]) (by rw [update_self, hv])
  have hquiet : ∀ ts, Quiet (applyModifies s₂ ms₃ k) c ts ↔
      Quiet (update s k (earlierOutcome s k props.startTS c) k) c ts := by
    intro ts
    rw [update_self, Quiet, Quiet, hw]
  constructor
  · intro h ts hts hq
    have := h { ts := ts } hts ((hquiet ts).mpr hq)
    rw [PointGetter.get_of_unlocked _ hl₃] at this
    exact (hvis ts).symm.trans (Except.ok.inj this)
  · intro h pg hts hq
    rw [PointGetter.get_of_unlocked _ hl₃, hvis, h pg.ts hts ((hquiet pg.ts).mp hq)]

/-! ### The condition on a row without jump pointers -/

section
variable {s : Store} {k : Key} {c ts : TimeStamp}

theorem visibleValue_of_quiet (hj : NoJumps (s k)) (hts : c ≤ ts) (hq : Quiet (s k) c ts) :
    visibleValue s k ts = visibleValue s k c := by
  have hnew : (s k).writes.newest (fun q => q.2.isDataChanged) ts =
      (s k).writes.newest (fun q => q.2.isDataChanged) c := by
    cases hc : (s k).writes.newest (fun q => q.2.isDataChanged) c with
    | none =>
      rw [newest_eq_none_iff] at hc ⊢
      intro r hr hrt
      by_contra hd
      exact hq r hr (by simpa using hd) ⟨not_le.mp fun hle => hd (hc r hr hle), hrt⟩
    | some q =>
      obtain ⟨⟨hq1, hq2, hq3⟩, hmax⟩ := newest_eq_some_iff.mp hc
      refine newest_eq_some_iff.mpr ⟨⟨hq1, hq2.trans hts, hq3⟩, fun r hr hrt hd => ?_⟩
      exact hmax r hr (not_lt.mp fun hlt => hq r hr hd ⟨hlt, hrt⟩) hd
  unfold visibleValue
  rw [getWrite_eq_find hj, getWrite_eq_find hj, hnew]

end

def heldValue (s : Store) (k : Key) (t c : TimeStamp) : Option Value :=
  match (lockOf s k t).filter fun lock => lock.lockType ≠ .pessimistic with
  | some lock =>
    match lock.lockType with
    | .put => writeValue s k (commitWrite lock).reload
    | .delete => none
    | _ => if c = 0 then none else visibleValue s k (prev c)
  | none => visibleValue s k c

section
variable {s : Store} {k : Key} {t c : TimeStamp} {lock : Lock} {w : Write}

theorem visibleValue_put (hj : NoJumps (s k)) (hj' : w.lastChange.ts = 0)
    (hd : w.isDataChanged) :
    visibleValue (update s k { s k with writes := (s k).writes.put c w }) k c =
      if w.writeType = .put then writeValue s k w else none := by
  set s' : Store := update s k { s k with writes := (s k).writes.put c w }
  have hrow : s' k = { s k with writes := (s k).writes.put c w } := update_self ..
  have hjs : NoJumps (s' k) := hrow ▸ hj.put hj' c
  have hnew : (s' k).writes.newest (fun q => q.2.isDataChanged) c = some (c, w) := by
    refine Versions.newest_eq_some_iff.mpr ⟨⟨?_, le_rfl, hd⟩, fun r _ hr _ => hr⟩
    rw [hrow, Versions.mem_put]
    exact Or.inl rfl
  have hval : writeValue s' k w = writeValue s k w := by
    unfold writeValue getValue
    rw [hrow]
  unfold visibleValue
  rw [getWrite_eq_find hjs, hnew]
  by_cases hp : w.writeType = .put
  · simp [Option.filter, hp, hval]
  · simp [Option.filter, hp]

theorem visibleValue_put_of_not_data (hj : NoJumps (s k))
    (hj' : w.lastChange.ts = 0) (hd : ¬w.isDataChanged) :
    visibleValue (update s k { s k with writes := (s k).writes.put c w }) k c =
      if c = 0 then none else visibleValue s k (prev c) := by
  set s' : Store := update s k { s k with writes := (s k).writes.put c w }
  have hrow : s' k = { s k with writes := (s k).writes.put c w } := update_self ..
  have hmem : ∀ q : TimeStamp × Write, q.2.isDataChanged →
      (q ∈ (s' k).writes.entries ↔ q ∈ (s k).writes.entries ∧ q.1 ≠ c) := by
    intro q hq
    rw [hrow, mem_put]
    constructor
    · rintro (rfl | h)
      · exact absurd hq hd
      · exact h.symm
    · exact fun h => .inr h.symm
  have hjs : NoJumps (s' k) := hrow ▸ hj.put hj' c
  have hval : ∀ w', writeValue s' k w' = writeValue s k w' := by
    intro w'
    unfold writeValue getValue
    rw [hrow]
  unfold visibleValue
  rw [getWrite_eq_find hjs]
  by_cases hc : c = 0
  · have hnone : (s' k).writes.newest (fun q => q.2.isDataChanged) c = none := by
      rw [newest_eq_none_iff]
      intro r hr hrc
      by_contra hdr
      have hr' := (hmem r (by simpa using hdr)).mp hr
      exact hr'.2 (le_antisymm hrc (hc ▸ UInt64.zero_le))
    rw [hnone, if_pos hc]
    rfl
  · have hnew : (s' k).writes.newest (fun q => q.2.isDataChanged) c =
        (s k).writes.newest (fun q => q.2.isDataChanged) (prev c) := by
      cases hp : (s k).writes.newest (fun q => q.2.isDataChanged) (prev c) with
      | none =>
        rw [newest_eq_none_iff] at hp ⊢
        intro r hr hrc
        by_contra hdr
        have hr' := (hmem r (by simpa using hdr)).mp hr
        exact hdr (hp r hr'.1 ((le_prev_iff hc).mpr (lt_of_le_of_ne hrc hr'.2)))
      | some q =>
        obtain ⟨⟨hq1, hq2, hq3⟩, hmax⟩ := newest_eq_some_iff.mp hp
        have hlt : q.1 < c := (le_prev_iff hc).mp hq2
        refine newest_eq_some_iff.mpr
          ⟨⟨(hmem q hq3).mpr ⟨hq1, hlt.ne⟩, hlt.le, hq3⟩, fun r hr hrc hdr => ?_⟩
        have hr' := (hmem r hdr).mp hr
        exact hmax r hr'.1 ((le_prev_iff hc).mpr (lt_of_le_of_ne hrc hr'.2)) hdr
    rw [hnew, if_neg hc, getWrite_eq_find hj]
    simp only [hval]

theorem held_iff_of_noJumps (hj : NoJumps (s k)) (value : Option Value) :
    Held s k t c value ↔ heldValue s k t c = value := by
  have hj' : NoJumps (update s k (earlierOutcome s k t c) k) := by
    rw [update_self, earlierOutcome]
    split
    · exact hj.put rfl c
    · exact hj
  have hread : Held s k t c value ↔
      visibleValue (update s k (earlierOutcome s k t c)) k c = value := by
    constructor
    · intro h
      exact h c le_rfl fun q _ _ hq => absurd hq.1 (not_lt.mpr hq.2)
    · intro h ts hts hq
      rw [visibleValue_of_quiet hj' hts hq, h]
  have hvalue : visibleValue (update s k (earlierOutcome s k t c)) k c =
      heldValue s k t c := by
    unfold earlierOutcome heldValue
    cases hl : (lockOf s k t).filter fun lock => lock.lockType ≠ .pessimistic with
    | none =>
      dsimp only
      rw [update_eq_self]
    | some lock =>
      have hp : lock.lockType ≠ .pessimistic := by
        simpa using (filter_eq_some_iff.mp hl).2
      dsimp only
      cases hty : lock.lockType with
      | put =>
        have hw : (commitWrite lock).writeType = .put := by
          simp [commitWrite, hty, lockTypeToWriteType]
        rw [visibleValue_put hj rfl (by simp [Write.isDataChanged, hw]), if_pos (by simp [hw])]
      | delete =>
        have hw : (commitWrite lock).writeType = .delete := by
          simp [commitWrite, hty, lockTypeToWriteType]
        rw [visibleValue_put hj rfl (by simp [Write.isDataChanged, hw]), if_neg (by simp [hw])]
      | lock =>
        have hw : (commitWrite lock).writeType = .lock := by
          simp [commitWrite, hty, lockTypeToWriteType]
        rw [visibleValue_put_of_not_data hj rfl (by simp [Write.isDataChanged, hw])]
      | pessimistic => exact absurd hty hp
  rw [hread, hvalue]

end

def lockProps : PessimisticLockProps :=
  { startTS := 5, forUpdateTS := 5, primary := [1], lockTTL := 100 }

def onePut : Mutation := { op := .put, key := [1], value := some [7] }

def oneDelete : Mutation := { op := .delete, key := [1] }

def lockedStore : Store :=
  applyModifies Store.empty (modifiesOf (acquirePessimisticLock Store.empty lockProps [1]))

def prewrittenStore (m : Mutation) : Store := (Storage.prewrite lockedStore [m] [1] 5 100).2

def committedStore (m : Mutation) : Store :=
  applyModifies (prewrittenStore m) (modifiesOf (Txn.commit (prewrittenStore m) [1] 5 6))

theorem delete_readsBack : ReadsBack (committedStore oneDelete) [1] 6 none := by
  have hacquire : acquirePessimisticLock Store.empty lockProps [1] =
      .ok (modifiesOf (acquirePessimisticLock Store.empty lockProps [1])) := rfl
  have hprewrite : prewrite lockedStore [oneDelete] [1] 5 100 =
      ([none], prewrittenStore oneDelete) := rfl
  have hcommit : Txn.commit (prewrittenStore oneDelete) [1] 5 6 =
      .ok (modifiesOf (Txn.commit (prewrittenStore oneDelete) [1] 5 6)) := rfl
  refine (readsBack_iff_held rfl rfl (by decide) (List.mem_singleton_self oneDelete) hacquire
    hprewrite (by simp) hcommit).mpr ?_
  rw [held_iff_of_noJumps (by simp [NoJumps, Store.empty])]
  rfl

theorem put_lost : acquirePessimisticLock Store.empty lockProps [1] =
        .ok (modifiesOf (acquirePessimisticLock Store.empty lockProps [1])) ∧
      (Storage.prewrite lockedStore [onePut] [1] 5 100).1 = [none] ∧
      Txn.commit (prewrittenStore onePut) [1] 5 6 =
        .ok (modifiesOf (Txn.commit (prewrittenStore onePut) [1] 5 6)) ∧
      PointGetter.get { ts := 6 } (committedStore onePut) [1] = .ok none ∧
      ¬ReadsBack (committedStore onePut) [1] 6 (expected onePut) := by
  have hread : PointGetter.get { ts := 6 } (committedStore onePut) [1] = .ok none := rfl
  refine ⟨rfl, rfl, rfl, hread, fun h => ?_⟩
  have hput := h { ts := 6 } le_rfl fun q _ _ hq => absurd hq.1 (not_lt.mpr hq.2)
  rw [hread] at hput
  exact absurd (Except.ok.inj hput) (by decide)

end PessimisticTxn
