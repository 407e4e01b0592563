/-
Concurrent calls of the raw interface: `CompareAndSwap`, `Put`, `Delete`, `BatchPut`,
`BatchDelete` and `DeleteRange` of `internal/server/raw_storage.go`.
-/
import Gookv.RawStorage

namespace Sequential

variable {σ ι ρ : Type*} (run : ι → σ → ρ × σ)

def runs (s : σ) : List ι → List (ι × ρ) × σ
  | [] => ([], s)
  | i :: is =>
    let rest := runs (run i s).2 is
    ((i, (run i s).1) :: rest.1, rest.2)

theorem runs_concat (s : σ) (is : List ι) (i : ι) : runs run s (is ++ [i]) =
      ((runs run s is).1 ++ [(i, (run i (runs run s is).2).1)], (run i (runs run s is).2).2) := by
  induction is generalizing s with
  | nil => rfl
  | cons j is ih =>
    rw [List.cons_append, runs, ih]
    rfl

def Explains (s₀ : σ) (order : List ι) (result : ι → Option ρ) (s : σ) : Prop :=
  (runs run s₀ order).2 = s ∧ ∀ p ∈ (runs run s₀ order).1, result p.1 = some p.2

variable {run} {s₀ s : σ} {order : List ι} {result result' : ι → Option ρ} {i : ι}

theorem Explains.concat (h : Explains run s₀ order result s)
    (hold : ∀ j r, result j = some r → result' j = some r) (hnew : result' i = some (run i s).1) :
    Explains run s₀ (order ++ [i]) result' (run i s).2 := by
  rw [Explains, runs_concat, h.1]
  refine ⟨rfl, fun p hp => ?_⟩
  rcases List.mem_append.mp hp with hp | hp
  · exact hold _ _ (h.2 p hp)
  · rw [List.mem_singleton.mp hp]
    exact hnew

end Sequential

namespace RawCas

open Txntypes StoreRestart Rocks RawStorage List Function StepSystem

structure Swap where
  now : UInt64
  now' : UInt64
  cf : Option CF
  key : Key
  value : Value
  prevValue : Value
  prevNotExist : Bool
  isDelete : Bool
  ttl : UInt64
  deriving DecidableEq

def Swap.read (w : Swap) (db : DB) : Except Error (Option Value) := get w.now db w.cf w.key

def Swap.matches (w : Swap) (current : Option Value) : Bool :=
  swapMatches current w.prevValue w.prevNotExist

def Swap.commit (w : Swap) (db : DB) : Except Error DB :=
  RawStorage.commit db (resolveCF w.cf) [swapModify w.now' w.cf w.key w.value w.isDelete w.ttl]

inductive Call
  | compareAndSwap (w : Swap)
  | put (now : UInt64) (cf : Option CF) (key : Key) (value : Value) (ttl : Option UInt64)
  | delete (cf : Option CF) (key : Key)
  | batchPut (now : ℕ → UInt64) (cf : Option CF) (pairs : List (Key × Value)) (ttls : List UInt64)
  | batchDelete (cf : Option CF) (keys : List Key)
  | deleteRange (cf : Option CF) (startKey endKey : Key)

abbrev Result := Except Error (Option SwapResult)

def effect (db : DB) : Except Error DB → Result × DB
  | .error e => (.error e, db)
  | .ok db' => (.ok none, db')

def Call.run : Call → DB → Result × DB
  | .compareAndSwap w, db =>
    match RawStorage.compareAndSwap w.now w.now' db w.cf w.key w.value w.prevValue w.prevNotExist
      w.isDelete w.ttl with
    | .error e => (.error e, db)
    | .ok (result, db') => (.ok (some result), db')
  | .put now cf key value ttl, db => effect db (RawStorage.put now db cf key value ttl)
  | .delete cf key, db => effect db (RawStorage.delete db cf key)
  | .batchPut now cf pairs ttls, db => effect db (batchPutWithTTL now db cf pairs ttls)
  | .batchDelete cf keys, db => effect db (RawStorage.batchDelete db cf keys)
  | .deleteRange cf startKey endKey, db => effect db (RawStorage.deleteRange db cf startKey endKey)

def Call.modifies : Call → List Modify
  | .compareAndSwap w => [swapModify w.now' w.cf w.key w.value w.isDelete w.ttl]
  | .put now cf key value ttl =>
    [.put (resolveCF cf) key (encodeValueWithTTL now value (ttl.getD 0))]
  | .delete cf key => [.delete (resolveCF cf) key]
  | .batchPut now cf pairs ttls => batchPuts now cf pairs ttls
  | .batchDelete cf keys => keys.map fun key => .delete (resolveCF cf) key
  | .deleteRange cf startKey endKey => [.deleteRange (resolveCF cf) startKey endKey]

/-- The writes of a call; none if a column family is unknown. -/
def Call.writes (call : Call) : List Modify :=
  if call.modifies.all fun m => (cfPrefix m.cf).isSome then call.modifies else []

inductive Phase
  | ready
  | locked
  | matched (current : Option Value)
  | done (result : Result)

/-- `since` has the writes of the other calls since a swap compared; `swaps` has the value compared
and the value then shown, for every write of a swap. -/
structure State where
  db : DB
  casMu : Option ℕ
  phase : ℕ → Phase
  since : List Modify
  swaps : List (Option Value × Except Error (Option Value))

def State.setPhase (s : State) (i : ℕ) (p : Phase) : State :=
  { s with phase := update s.phase i p }

def State.finish (s : State) (i : ℕ) (result : Result) : State :=
  { s.setPhase i (.done result) with casMu := none }

def swapStep (s : State) (i : ℕ) (w : Swap) : Option State :=
  match s.phase i with
  | .ready => if s.casMu = none then some { s.setPhase i .locked with casMu := some i } else none
  | .locked =>
    match w.read s.db with
    | .error e => some (s.finish i (.error e))
    | .ok current =>
      if w.matches current then some { s.setPhase i (.matched current) with since := [] }
      else some (s.finish i (.ok (some ⟨false, current.isNone, current⟩)))
  | .matched current =>
    let s := { s with swaps := s.swaps ++ [(current, w.read s.db)] }
    match w.commit s.db with
    | .error e => some (s.finish i (.error e))
    | .ok db => some { s.finish i (.ok (some ⟨true, current.isNone, current⟩)) with db }
  | .done _ => none

def plainStep (s : State) (i : ℕ) (call : Call) : Option State :=
  match s.phase i with
  | .ready =>
    some { s.setPhase i (.done (call.run s.db).1) with
      db := (call.run s.db).2
      since := s.since ++ call.writes }
  | _ => none

def step (calls : List Call) (s : State) (i : ℕ) : Option State :=
  match calls[i]? with
  | none => none
  | some (.compareAndSwap w) => swapStep s i w
  | some call => plainStep s i call

def start (db : DB) : State := ⟨db, none, fun _ => .ready, [], []⟩

def system (calls : List Call) (db : DB) : StepSystem State ℕ := ⟨start db, step calls⟩

def Phase.result : Phase → Option Result
  | .done result => some result
  | .ready | .locked | .matched _ => none

def runCall (calls : List Call) (i : ℕ) (db : DB) : Result × DB :=
  match calls[i]? with
  | none => (.ok none, db)
  | some call => call.run db

structure Atomic (calls : List Call) (db : DB) (s : State) : Prop where
  serial : ∃ order : List ℕ, order.Perm (List.range calls.length) ∧
    Sequential.Explains (runCall calls) db order (fun i => (s.phase i).result) s.db
  intact : ∀ p ∈ s.swaps, p.2 = .ok p.1

def Complete (calls : List Call) (s : State) : Prop :=
  ∀ i < calls.length, (s.phase i).result ≠ none

instance (calls : List Call) (s : State) : Decidable (Complete calls s) :=
  inferInstanceAs (Decidable (∀ i < calls.length, (s.phase i).result ≠ none))

/-- What a write of another call leaves of the key of a swap. -/
def Swap.hit (w : Swap) : Modify → Option (Option Value) := Modify.writeAt (resolveCF w.cf) w.key

/-- When a swap comes to its write, the last of the other calls' writes to its key since it
compared, if there is one, shows the value that it compared. -/
def Intact (calls : List Call) (s : State) (i : ℕ) : Prop :=
  ∀ w current, calls[i]? = some (.compareAndSwap w) → s.phase i = .matched current →
    ∀ raw, LastWrite w.hit s.since = some raw → raw.bind (visible w.now) = current

def Finds (calls : List Call) (s : State) (i : ℕ) : Prop :=
  ∀ w current, calls[i]? = some (.compareAndSwap w) → s.phase i = .matched current →
    w.read s.db = .ok current

variable {calls : List Call} {db : DB} {s s' : State} {i : ℕ} {current : Option Value} {w : Swap}

theorem run_of_error {e : Error} (h : w.read db = .error e) :
    (Call.compareAndSwap w).run db = (.error e, db) := by
  rw [Call.run, compareAndSwap, show get w.now db w.cf w.key = .error e from h]

theorem run_of_mismatch (h : w.read db = .ok current)
    (hmatch : ¬ w.matches current = true) :
    (Call.compareAndSwap w).run db = (.ok (some ⟨false, current.isNone, current⟩), db) := by
  have hmatch' : ¬ swapMatches current w.prevValue w.prevNotExist = true := hmatch
  rw [Call.run, compareAndSwap, show get w.now db w.cf w.key = .ok current from h]
  simp only [if_neg hmatch']

def writeEffect (w : Swap) (current : Option Value) (db : DB) : Result × DB :=
  match w.commit db with
  | .error e => (.error e, db)
  | .ok db' => (.ok (some ⟨true, current.isNone, current⟩), db')

theorem run_of_match (h : w.read db = .ok current)
    (hmatch : w.matches current = true) :
    (Call.compareAndSwap w).run db = writeEffect w current db := by
  have hmatch' : swapMatches current w.prevValue w.prevNotExist = true := hmatch
  rw [Call.run, compareAndSwap, show get w.now db w.cf w.key = .ok current from h, writeEffect,
    Swap.commit]
  simp only [if_pos hmatch']
  rcases RawStorage.commit db (resolveCF w.cf)
    [swapModify w.now' w.cf w.key w.value w.isDelete w.ttl] with e | db'
  · rfl
  · rfl

inductive StepCase (calls : List Call) (s : State) (i : ℕ) : State → Prop
  | plain {call : Call} : calls[i]? = some call → (∀ w, call ≠ .compareAndSwap w) →
      s.phase i = .ready → StepCase calls s i
        { s.setPhase i (.done (call.run s.db).1) with
          db := (call.run s.db).2
          since := s.since ++ call.writes }
  | lock {w : Swap} : calls[i]? = some (.compareAndSwap w) → s.phase i = .ready → s.casMu = none →
      StepCase calls s i { s.setPhase i .locked with casMu := some i }
  | compare {w : Swap} {current : Option Value} : calls[i]? = some (.compareAndSwap w) →
      s.phase i = .locked → w.read s.db = .ok current → w.matches current = true →
      StepCase calls s i { s.setPhase i (.matched current) with since := [] }
  | fail {w : Swap} {result : Result} : calls[i]? = some (.compareAndSwap w) →
      s.phase i = .locked → (Call.compareAndSwap w).run s.db = (result, s.db) →
      StepCase calls s i (s.finish i result)
  | write {w : Swap} {current : Option Value} : calls[i]? = some (.compareAndSwap w) →
      s.phase i = .matched current → StepCase calls s i
        { s.finish i (writeEffect w current s.db).1 with
          db := (writeEffect w current s.db).2
          swaps := s.swaps ++ [(current, w.read s.db)] }

theorem swapStep_cases (hi : calls[i]? = some (.compareAndSwap w))
    (h : swapStep s i w = some s') : StepCase calls s i s' := by
  rw [swapStep] at h
  split at h
  · rename_i hphase
    obtain ⟨hfree, rfl⟩ := of_guard h
    exact .lock hi hphase hfree
  · rename_i hphase
    split at h
    · rename_i e hread
      cases h
      exact .fail hi hphase (run_of_error hread)
    · rename_i current hread
      split at h
      · cases h
        exact .compare hi hphase hread ‹_›
      · rename_i hmatch
        cases h
        exact .fail hi hphase (run_of_mismatch hread hmatch)
  · rename_i current hphase
    have hwrite := StepCase.write hi hphase
    rw [writeEffect] at hwrite
    dsimp only at h
    split at h
    · rename_i hcommit
      cases h
      rw [hcommit] at hwrite
      exact hwrite
    · rename_i hcommit
      cases h
      rw [hcommit] at hwrite
      exact hwrite
  · cases h

theorem step_cases (h : step calls s i = some s') : StepCase calls s i s' := by
  rw [step] at h
  split at h
  · cases h
  · exact swapStep_cases ‹_› h
  · rename_i call hnot hi
    rw [plainStep] at h
    split at h
    · cases h
      exact .plain hi (fun w hw => hnot w hw) ‹_›
    · cases h

/-! ### The order in which the calls take effect -/

structure Ordered (calls : List Call) (db : DB) (s : State) (order : List ℕ) : Prop where
  nodup : order.Nodup
  mem : ∀ i, i ∈ order ↔ (s.phase i).result ≠ none
  called : ∀ i, (s.phase i).result ≠ none → i < calls.length
  explains : Sequential.Explains (runCall calls) db order (fun i => (s.phase i).result) s.db
  matched : ∀ i w current, calls[i]? = some (.compareAndSwap w) → s.phase i = .matched current →
    w.matches current = true

theorem ordered_start : Ordered calls db (start db) [] where
  nodup := nodup_nil
  mem i := by simp [start, Phase.result]
  called i h := absurd rfl h
  explains := ⟨rfl, fun p hp => absurd hp not_mem_nil⟩
  matched i w current _ h := by cases h

theorem Ordered.setPhase {order : List ℕ} (h : Ordered calls db s order) {p : Phase}
    (hi : (s.phase i).result = none) (hp : p.result = none)
    (hmatched : ∀ w current, calls[i]? = some (.compareAndSwap w) → p = .matched current →
      w.matches current = true) {casMu : Option ℕ} {since : List Modify} :
    Ordered calls db { s.setPhase i p with casMu, since } order := by
  have hresult : ∀ j, (update s.phase i p j).result = (s.phase j).result := by
    intro j
    by_cases hj : j = i
    · rw [hj, update_self, hp, hi]
    · rw [update_of_ne hj]
  refine ⟨h.nodup, fun j => ?_, fun j hj => h.called j ?_, ?_, fun j w current hj hphase => ?_⟩
  · exact (h.mem j).trans (by rw [← hresult j]; rfl)
  · rwa [← hresult j]
  · have heq : (fun j => (update s.phase i p j).result) = fun j => (s.phase j).result :=
      funext hresult
    show Sequential.Explains (runCall calls) db order
      (fun j => (update s.phase i p j).result) s.db
    rw [heq]
    exact h.explains
  · by_cases hji : j = i
    · subst hji
      exact hmatched w current hj ((update_self ..).symm.trans hphase)
    · exact h.matched j w current hj ((update_of_ne hji ..).symm.trans hphase)

theorem Ordered.finish {order : List ℕ} (h : Ordered calls db s order)
    (hi : (s.phase i).result = none) (hcall : i < calls.length) {casMu : Option ℕ}
    {since : List Modify} {swaps : List (Option Value × Except Error (Option Value))} :
    Ordered calls db ⟨(runCall calls i s.db).2, casMu,
      update s.phase i (.done (runCall calls i s.db).1), since, swaps⟩ (order ++ [i]) := by
  have hresult : ∀ j, j ≠ i → (update s.phase i
      (.done (runCall calls i s.db).1) j).result = (s.phase j).result := by
    intro j hj
    rw [update_of_ne hj]
  have hself : (update s.phase i (.done (runCall calls i s.db).1) i).result =
      some (runCall calls i s.db).1 := by
    rw [update_self]
    rfl
  have hnew : i ∉ order := fun hmem => (h.mem i).mp hmem hi
  refine ⟨?_, fun j => ?_, fun j hj => ?_, ?_, fun j w current hj hphase => ?_⟩
  · exact List.nodup_append.mpr ⟨h.nodup, nodup_singleton i, by
      intro a ha b hb heq
      rw [mem_singleton] at hb
      exact hnew (hb ▸ heq ▸ ha)⟩
  · rw [mem_append, mem_singleton]
    by_cases hj : j = i
    · subst hj
      rw [hself]
      simp
    · rw [hresult j hj, h.mem j]
      simp [hj]
  · by_cases hji : j = i
    · exact hji ▸ hcall
    · exact h.called j (by rwa [← hresult j hji])
  · refine h.explains.concat (fun j r hj => ?_) hself
    by_cases hji : j = i
    · subst hji
      exact absurd (hi.symm.trans hj) (by simp)
    · exact (hresult j hji).trans hj
  · by_cases hji : j = i
    · subst hji
      exact absurd ((update_self ..).symm.trans hphase) (by simp)
    · exact h.matched j w current hj ((update_of_ne hji ..).symm.trans hphase)

theorem runCall_eq {call : Call} (hi : calls[i]? = some call) (db : DB) :
    runCall calls i db = call.run db := by
  rw [runCall, hi]

theorem ordered_step (hinv : ∃ order, Ordered calls db s order) (hC : Finds calls s i)
    (h : step calls s i = some s') : ∃ order, Ordered calls db s' order := by
  obtain ⟨order, hord⟩ := hinv
  cases step_cases h with
  | plain hi hplain hphase =>
    rw [← runCall_eq hi]
    exact ⟨_, hord.finish (by rw [hphase]; rfl) (List.getElem?_eq_some_iff.mp hi).1⟩
  | lock hi hphase hfree =>
    exact ⟨_, hord.setPhase (by rw [hphase]; rfl) rfl fun w current _ hp => by cases hp⟩
  | compare hi hphase hread hmatch =>
    refine ⟨_, hord.setPhase (by rw [hphase]; rfl) rfl fun w' current' hi' hp => ?_⟩
    cases hp
    cases hi.symm.trans hi'
    exact hmatch
  | fail hi hphase hrun =>
    -- the content after the call is the one before it
    rw [← runCall_eq hi] at hrun
    have hfin : Ordered calls db ⟨(runCall calls i s.db).2, none,
        update s.phase i (.done (runCall calls i s.db).1), s.since, s.swaps⟩
        (order ++ [i]) :=
      hord.finish (by rw [hphase]; rfl) (List.getElem?_eq_some_iff.mp hi).1
    rw [hrun] at hfin
    exact ⟨_, hfin⟩
  | write hi hphase =>
    have hrun := run_of_match (hC _ _ hi hphase) (hord.matched _ _ _ hi hphase)
    rw [← hrun, ← runCall_eq hi]
    exact ⟨_, hord.finish (by rw [hphase]; rfl) (List.getElem?_eq_some_iff.mp hi).1⟩

theorem Ordered.perm {order : List ℕ} (h : Ordered calls db s order) (hall : Complete calls s) :
    order.Perm (List.range calls.length) := by
  refine (perm_ext_iff_of_nodup h.nodup nodup_range).mpr fun i => ?_
  rw [h.mem, mem_range]
  exact ⟨h.called i, hall i⟩

def SwapsIntact (s : State) : Prop := ∀ p ∈ s.swaps, p.2 = .ok p.1

theorem finds_of_phase (h : ∀ current, s.phase i ≠ .matched current) : Finds calls s i :=
  fun _ current _ hp => absurd hp (h current)

theorem swapsIntact_step_iff (h : step calls s i = some s') :
    SwapsIntact s' ↔ SwapsIntact s ∧ Finds calls s i := by
  cases step_cases h with
  | plain hi hplain hphase | lock hi hphase | compare hi hphase | fail hi hphase =>
    exact ⟨fun hs => ⟨hs, finds_of_phase (by simp [hphase])⟩, fun hs => hs.1⟩
  | write hi hphase =>
    rename_i w current
    constructor
    · intro hs
      refine ⟨fun p hp => hs p (mem_append_left _ hp), fun w' current' hi' hp => ?_⟩
      cases hi.symm.trans hi'
      cases hphase.symm.trans hp
      exact hs (current, w.read s.db) (mem_append_right _ (mem_singleton_self _))
    · rintro ⟨hs, hC⟩ p hp
      rcases List.mem_append.mp hp with hp | hp
      · exact hs p hp
      · rw [List.mem_singleton.mp hp]
        exact hC w current hi hphase

/-! ### What a swap finds -/

/-- What is shown after writes, if `current` was shown before them. -/
def Swap.shows (w : Swap) (current : Option Value) (ms : List Modify) : Option Value :=
  ((LastWrite w.hit ms).map (·.bind (visible w.now))).getD current

theorem read_run {call : Call} (hplain : ∀ w, call ≠ .compareAndSwap w)
    (h : w.read db = .ok current) :
    w.read (call.run db).2 = .ok (w.shows current call.writes) := by
  obtain ⟨cf, hrun⟩ : ∃ cf, call.run db = effect db (RawStorage.commit db cf call.modifies) := by
    cases call with
    | compareAndSwap w => exact absurd rfl (hplain w)
    | _ => exact ⟨_, rfl⟩
  rw [Swap.read, RawStorage.get, engineGet] at h ⊢
  split at h
  · rename_i hcf
    rw [if_pos hcf, hrun, RawStorage.commit, Swap.shows, Call.writes, ← batchOps_isSome db]
    cases h
    cases hops : batchOps db call.modifies with
    | none => rfl
    | some db' =>
      show Except.ok ((Rocks.get db' (resolveCF w.cf) w.key).bind (visible w.now)) = _
      rw [get_batchOps hops, if_pos (by rfl), Swap.hit]
      cases LastWrite (Modify.writeAt (resolveCF w.cf) w.key) call.modifies <;> rfl
  · cases h

/-- A swap that has compared reads what it compared or the last write since then. -/
def Tracked (s : State) (j : ℕ) (w : Swap) : Phase → Prop
  | .ready | .done _ => True
  | .locked => s.casMu = some j
  | .matched current => s.casMu = some j ∧ w.read s.db = .ok (w.shows current s.since)

def Tracks (calls : List Call) (s : State) : Prop :=
  ∀ j w, calls[j]? = some (.compareAndSwap w) → Tracked s j w (s.phase j)

theorem Tracked.of_ne {j : ℕ} {p : Phase} (h : Tracked s j w p) (hne : s.casMu ≠ some j)
    (s' : State) : Tracked s' j w p := by
  cases p with
  | ready | done _ => trivial
  | locked => exact absurd h hne
  | matched _ => exact absurd h.1 hne

theorem tracks_step (h : Tracks calls s) (hs : step calls s i = some s') : Tracks calls s' := by
  intro j w hj
  have htracked := h j w hj
  by_cases hji : j = i
  · subst hji
    cases step_cases hs with
    | plain hi hplain => exact absurd (Option.some.inj (hi.symm.trans hj)) (hplain w)
    | lock => simp [State.setPhase, Tracked]
    | compare hi hphase hread =>
      cases hi.symm.trans hj
      rw [hphase] at htracked
      simpa [State.setPhase, Tracked] using ⟨htracked, hread⟩
    | fail | write => simp [State.finish, State.setPhase, Tracked]
  · have hother : s'.phase j = s.phase j := by
      cases step_cases hs <;> exact update_of_ne hji _ _
    rw [hother]
    cases step_cases hs with
    | plain hi hplain =>
      cases hp : s.phase j with
      | ready | done _ => trivial
      | locked =>
        rw [hp] at htracked
        exact htracked
      | matched current =>
        rw [hp] at htracked
        refine ⟨htracked.1, (read_run hplain htracked.2).trans ?_⟩
        simp only [Swap.shows, LastWrite.append]
        cases LastWrite w.hit _ <;> rfl
    | lock hi hphase hfree => exact htracked.of_ne (by simp [hfree]) _
    | compare hi hphase | fail hi hphase =>
      have hheld := h i _ hi
      rw [hphase] at hheld
      exact htracked.of_ne (fun hj => hji (Option.some.inj (hj.symm.trans hheld))) _
    | write hi hphase =>
      have hheld := h i _ hi
      rw [hphase] at hheld
      exact htracked.of_ne (fun hj => hji (Option.some.inj (hj.symm.trans hheld.1))) _

theorem Tracks.finds_iff (h : Tracks calls s) (i : ℕ) : Finds calls s i ↔ Intact calls s i := by
  refine forall₂_congr fun w current => forall₂_congr fun hi hphase => ?_
  have htracked := h i w hi
  rw [hphase] at htracked
  rw [htracked.2, Except.ok.injEq, Swap.shows]
  cases LastWrite w.hit s.since <;> simp

/-! ### Atomicity -/

/-- **The calls are atomic exactly when no write of another call to the key of a swap, between its
compare and its write, is left with another value.** -/
theorem atomic_iff {as : List ℕ} (h : (system calls db).runFrom (start db) as = some s)
    (hall : Complete calls s) :
    Atomic calls db s ↔ (system calls db).Meets (Intact calls) (start db) as := by
  have htracks : Tracks calls (start db) := fun _ _ _ => trivial
  rw [← meets_congr (I := Tracks calls) (fun _ _ _ _ => tracks_step)
    (fun _ i _ hs => hs.finds_iff i) htracks]
  constructor
  · intro hatomic
    refine meets_of_run (P := SwapsIntact) (fun s s' i hbad hstep hs' => ?_)
      (fun s s' i hbad hstep hs' => ?_) h hatomic.intact
    · exact hbad ((swapsIntact_step_iff hstep).mp hs').1
    · exact hbad ((swapsIntact_step_iff hstep).mp hs').2
  · intro hC
    obtain ⟨⟨order, hord⟩, hintact⟩ := hC.invariant
      (P := fun s => (∃ order, Ordered calls db s order) ∧ SwapsIntact s)
      (fun s s' i hinv hC hstep => ⟨ordered_step hinv.1 hC hstep,
        (swapsIntact_step_iff hstep).mpr ⟨hinv.2, hC⟩⟩)
      ⟨⟨[], ordered_start⟩, fun p hp => absurd hp not_mem_nil⟩ h
    exact ⟨⟨order, hord.perm hall, hord.explains⟩, hintact⟩

def before : DB := Rocks.applyModifies Table.empty [.put .default [0x6b] [0x61]]

def swapCall : Call := .compareAndSwap ⟨0, 0, none, [0x6b], [0x62], [0x61], false, false, 0⟩

def putCall : Call := .put 0 none [0x6b] [0x63] none

def after (as : List ℕ) : State :=
  ((system [swapCall, putCall] before).runFrom (start before) as).getD (start before)

theorem atomic_put_after_swap :
    (system [swapCall, putCall] before).runFrom (start before) [0, 0, 0, 1] =
        some (after [0, 0, 0, 1]) ∧
      Complete [swapCall, putCall] (after [0, 0, 0, 1]) ∧
      Atomic [swapCall, putCall] before (after [0, 0, 0, 1]) := by
  have hrun : (system [swapCall, putCall] before).runFrom (start before) [0, 0, 0, 1] =
      some (after [0, 0, 0, 1]) := rfl
  refine ⟨hrun, by decide, (atomic_iff hrun (by decide)).mpr ?_⟩
  refine .cons rfl (fun _ _ _ hp => Phase.noConfusion hp) ?_
  refine .cons rfl (fun _ _ _ hp => Phase.noConfusion hp) ?_
  refine .cons rfl (fun w current hi hp raw hraw => nomatch hraw) ?_
  exact .cons rfl (fun _ _ _ hp => Phase.noConfusion hp) trivial

/-- **The value of a put is lost**: it is written after the swap has compared and before the
swap writes.  No order of the two calls explains it: after the put, the swap would fail, and
before it, the value of the put would be there at the end. -/
theorem swap_overwrites_put :
    (system [swapCall, putCall] before).runFrom (start before) [0, 0, 1, 0] =
        some (after [0, 0, 1, 0]) ∧
      Complete [swapCall, putCall] (after [0, 0, 1, 0]) ∧
      ((after [0, 0, 1, 0]).phase 0).result = some (.ok (some ⟨true, false, some [0x61]⟩)) ∧
      (after [0, 0, 1, 0]).swaps = [(some [0x61], .ok (some [0x63]))] ∧
      (¬ ∃ order : List ℕ, order.Perm (List.range 2) ∧
        Sequential.Explains (runCall [swapCall, putCall]) before order
          (fun i => ((after [0, 0, 1, 0]).phase i).result) (after [0, 0, 1, 0]).db) ∧
      ¬ Atomic [swapCall, putCall] before (after [0, 0, 1, 0]) := by
  have hserial : ¬ ∃ order : List ℕ, order.Perm (List.range 2) ∧
      Sequential.Explains (runCall [swapCall, putCall]) before order
        (fun i => ((after [0, 0, 1, 0]).phase i).result) (after [0, 0, 1, 0]).db := by
    rintro ⟨order, hperm, hdb, hresults⟩
    have horder : order = [0, 1] ∨ order = [1, 0] := by
      have hmem := List.mem_permutations'.mpr hperm
      have hall : (List.range 2).permutations' = [[0, 1], [1, 0]] := rfl
      rw [hall] at hmem
      simpa using hmem
    rcases horder with rfl | rfl
    · exact absurd (congrArg (fun db => RawStorage.get 0 db none [0x6b]) hdb) (by decide)
    · exact absurd (hresults (0, .ok (some ⟨false, false, some [0x63]⟩)) (by decide)) (by decide)
  exact ⟨rfl, by decide, rfl, rfl, hserial, fun h => hserial h.serial⟩

end RawCas
