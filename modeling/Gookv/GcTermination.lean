/-
Whether the garbage collection of a key ends.

Below a version at timestamp `0` is the largest timestamp, so the loop starts again.
-/
import Gookv.Gc
import Gookv.TxnRuns

open Txntypes Mvcc Txn Storage

namespace Gc

def gcVisits (snap : Store) (key : Key) (safePoint : TimeStamp) : ℕ → Walk → List TimeStamp
  | 0, _ => []
  | fuel + 1, w =>
    match seekWrite snap key w.ts with
    | none => []
    | some (commitTS, write) =>
      commitTS :: match visit snap key safePoint commitTS write w.found with
        | (true, w') => gcVisits snap key safePoint fuel w'
        | (false, _) => []

def NoneAtZero (r : Row) : Prop := ∀ q ∈ r.writes.entries, q.1 ≠ 0

section

variable {s : Store} {k : Key} {sp : TimeStamp}

theorem visit_ts {c : TimeStamp} {write : Write} {w w' : Walk}
    (h : visit s k sp c write w = (true, w')) : w'.ts = c - 1 := by
  have hidem : ∀ {w : Walk}, removeIdempotent s k c write w = (true, w') → w'.ts = c - 1 := by
    intro w h
    rw [removeIdempotent] at h
    cases hty : write.writeType with
    | put =>
      rw [hty] at h
      exact (Prod.mk.inj h).2 ▸ rfl
    | delete =>
      rw [hty] at h
      dsimp only at h
      split at h
      · exact absurd (Prod.mk.inj h).1 (by simp)
      · exact (Prod.mk.inj h).2 ▸ rfl
    | lock | rollback =>
      rw [hty] at h
      exact (Prod.mk.inj h).2 ▸ rfl
  rw [visit] at h
  split at h
  · split at h
    · exact (Prod.mk.inj h).2 ▸ rfl
    · exact hidem h
  · exact hidem h
  · rw [← (Prod.mk.inj h).2, removeAll]

theorem mem_of_seekWrite {ts : TimeStamp} {q : TimeStamp × Write} (h : seekWrite s k ts = some q) :
    q ∈ (s k).writes.entries ∧ q.1 ≤ ts :=
  Versions.mem_upTo.mp (List.mem_of_mem_head? h)

theorem gcVisits_subset : ∀ (fuel : ℕ) (w : Walk), ∀ c ∈ gcVisits s k sp fuel w,
    c ∈ (s k).writes.entries.map Prod.fst := by
  intro fuel
  induction fuel with
  | zero =>
    intro w c hc
    simp [gcVisits] at hc
  | succ fuel ih =>
    intro w c hc
    rw [gcVisits] at hc
    cases hseek : seekWrite s k w.ts with
    | none => simp [hseek] at hc
    | some q =>
      rw [hseek] at hc
      rcases List.mem_cons.mp hc with rfl | hc
      · exact List.mem_map_of_mem (mem_of_seekWrite hseek).1
      · split at hc
        · exact ih _ c hc
        · exact absurd hc List.not_mem_nil

theorem gcVisits_sorted (hzero : NoneAtZero (s k)) : ∀ (fuel : ℕ) (w : Walk),
    ((gcVisits s k sp fuel w).Pairwise fun a b => b < a) ∧
      ∀ c ∈ gcVisits s k sp fuel w, c ≤ w.ts := by
  intro fuel
  induction fuel with
  | zero =>
    intro w
    simp [gcVisits]
  | succ fuel ih =>
    intro w
    rw [gcVisits]
    cases hseek : seekWrite s k w.ts with
    | none => simp
    | some q =>
      obtain ⟨c, write⟩ := q
      obtain ⟨hmem, hle⟩ := mem_of_seekWrite hseek
      have hc : c ≠ 0 := hzero _ hmem
      dsimp only
      split
      · rename_i w' hvisit
        obtain ⟨hsorted, hbound⟩ := ih w'
        -- what comes later is below `c - 1`, which does not wrap
        have hlt : ∀ c' ∈ gcVisits s k sp fuel w', c' < c := by
          intro c' hc'
          have hle' := hbound c' hc'
          rw [visit_ts hvisit] at hle'
          exact (le_prev_iff hc).mp (by rwa [prev, if_neg hc])
        refine ⟨List.pairwise_cons.mpr ⟨hlt, hsorted⟩, fun c' hc' => ?_⟩
        rcases List.mem_cons.mp hc' with rfl | hc'
        · exact hle
        · exact (hlt c' hc').le.trans hle
      · simpa using hle

theorem length_gcVisits : ∀ {fuel : ℕ} {w : Walk}, gcLoop s k sp fuel w = none →
    (gcVisits s k sp fuel w).length = fuel := by
  intro fuel
  induction fuel with
  | zero =>
    intro w _
    rfl
  | succ fuel ih =>
    intro w h
    rw [gcLoop] at h
    rw [gcVisits]
    cases hseek : seekWrite s k w.ts with
    | none => simp [hseek] at h
    | some q =>
      rw [hseek] at h
      dsimp only at h ⊢
      rcases hvisit : visit s k sp q.1 q.2 w.found with ⟨_ | _, w'⟩
      · simp only [hvisit] at h
        cases h
      · simp only [hvisit] at h ⊢
        rw [List.length_cons, ih h]

theorem gcLoop_ends_iff : (∃ fuel w, gcLoop s k sp fuel {} = some w) ↔ NoneAtZero (s k) := by
  constructor
  · rintro ⟨fuel, w, h⟩ q hq hq0
    rw [gcLoop_eq_none sp hq hq0] at h
    cases h
  · intro hzero
    obtain ⟨info, h⟩ := gc_eq (s := s) (k := k) sp hzero
    obtain ⟨w, hw, -⟩ := Option.map_eq_some_iff.mp h
    exact ⟨_, w, hw⟩

theorem gcVisits_nodup_iff : (∀ fuel, (gcVisits s k sp fuel {}).Nodup) ↔ NoneAtZero (s k) := by
  constructor
  · intro hnodup q hq hq0
    -- an endless loop looks at more versions than there are
    have hlen := length_gcVisits
      (gcLoop_eq_none sp hq hq0 ((s k).writes.entries.length + 1) {})
    have hle := ((hnodup ((s k).writes.entries.length + 1)).subperm (gcVisits_subset _ {})).length_le
    rw [hlen, List.length_map] at hle
    omega
  · intro hzero fuel
    exact (gcVisits_sorted hzero fuel {}).1.imp fun h => h.ne'

end

/-! ### Which stores have a version at `0` -/

def Positive : Command → Prop
  | .prewrite1PC _ _ _ commitTS _ => commitTS ≠ 0
  | .commit _ _ commitTS => commitTS ≠ 0
  | .batchRollback _ startTS => startTS ≠ 0
  | .resolveLock startTS _ _ => startTS ≠ 0
  | .checkTxnStatusWithCleanup _ startTS _ _ => startTS ≠ 0
  | .cleanup _ startTS => startTS ≠ 0
  | .cleanupModifies _ startTS => startTS ≠ 0
  | _ => True

instance : (cmd : Command) → Decidable (Positive cmd)
  | .prewrite1PC _ _ _ _ _ => inferInstanceAs (Decidable (_ ≠ _))
  | .commit _ _ _ => inferInstanceAs (Decidable (_ ≠ _))
  | .batchRollback _ _ => inferInstanceAs (Decidable (_ ≠ _))
  | .resolveLock _ _ _ => inferInstanceAs (Decidable (_ ≠ _))
  | .checkTxnStatusWithCleanup _ _ _ _ => inferInstanceAs (Decidable (_ ≠ _))
  | .cleanup _ _ => inferInstanceAs (Decidable (_ ≠ _))
  | .cleanupModifies _ _ => inferInstanceAs (Decidable (_ ≠ _))
  | .prewrite _ _ _ _ | .prewriteAsyncCommit _ _ _ _ _ _ | .pessimisticLock _ _ _ _ _
  | .prewritePessimistic _ _ | .pessimisticRollback _ _ _ => isTrue trivial

variable {cmd : Command} {s : Store}

theorem recordTS_ne_zero {a : KeyAction} {e : Effect} {q : TimeStamp × Write}
    (hpos : Positive cmd) (ha : a ∈ cmd.actions)
    (he : a.effect s = some e) (hq : e.record = some q) : q.1 ≠ 0 := by
  cases hlocking : cmd.isLocking with
  | true =>
    have hnone := KeyAction.record_eq_none ((Command.isLocking_of_mem ha).trans hlocking) he
    rw [hnone] at hq
    cases hq
  | false =>
    rw [(KeyAction.concludes hlocking ha he).record q.1 q.2 hq]
    cases cmd with
    | prewrite ms p t ttl | prewriteAsyncCommit ms p t ttl secs maxTS
    | pessimisticLock keys p t fu ttl | prewritePessimistic props m =>
      simp [Command.isLocking] at hlocking
    | prewrite1PC ms p t c ttl => exact hpos
    | pessimisticRollback keys t fu =>
      obtain ⟨k, -, rfl⟩ := List.mem_map.mp ha
      obtain ⟨-, rfl⟩ | rfl := KeyAction.pessimisticRollback_eq_some he
      · cases hq
      · cases hq
    | commit keys t c | batchRollback keys t => exact hpos
    | resolveLock t c keys =>
      rw [Command.recordTS]
      split_ifs with hc
      · exact hc.ne'
      · exact hpos
    | checkTxnStatusWithCleanup k t caller rb => exact hpos
    | cleanup k t =>
      obtain rfl := List.mem_singleton.mp ha
      obtain ⟨-, rfl⟩ | ⟨lock, hl, -⟩ := KeyAction.cleanup_eq_some he
      · cases hq
      · rw [Command.recordTS, hl]
        dsimp only
        split_ifs with hc
        · exact hc
        · exact hpos
    | cleanupModifies k t =>
      obtain rfl := List.mem_singleton.mp ha
      obtain ⟨-, rfl⟩ | ⟨lock, hl, -⟩ := KeyAction.cleanupModifies_eq_some he
      · cases hq
      · rw [Command.recordTS, hl]
        dsimp only
        split_ifs with hc
        · exact hc
        · exact hpos

theorem noneAtZero_run (hpos : Positive cmd)
    (h : ∀ k, NoneAtZero (s k)) (k : Key) : NoneAtZero (run s cmd k) := by
  by_cases hacc : Accepted s cmd
  · intro q hq
    rcases mem_run hacc hq with hold | ⟨a, ha, -, e, he, hrec⟩
    · exact h k q hold
    · exact recordTS_ne_zero hpos ha he hrec
  · rw [run_refused hacc]
    exact h k

theorem noneAtZero_of_positive
    (h : system.ReachableWhen (fun _ cmd => Positive cmd) s) (k : Key) : NoneAtZero (s k) := by
  refine h.invariant (P := fun s => ∀ k, NoneAtZero (s k)) (fun k q hq => ?_) ?_ k
  · exact absurd hq (by simp [system, Store.empty])
  · intro s s' cmd hs hpos hstep
    cases hstep
    exact noneAtZero_run hpos hs

/-- **The collection of a key.**  Its loop ends, and comes to each version at most once, if
and only if no version of the key is at timestamp `0`.  After commands that write no record
at `0` it always does. -/
theorem gc_ends_iff (s : Store) (k : Key) (sp : TimeStamp) :
    ((∃ fuel w, gcLoop s k sp fuel {} = some w) ↔ NoneAtZero (s k)) ∧
    ((∀ fuel, (gcVisits s k sp fuel {}).Nodup) ↔ NoneAtZero (s k)) ∧
    (system.ReachableWhen (fun _ cmd => Positive cmd) s →
      (∃ fuel w, gcLoop s k sp fuel {} = some w) ∧ ∀ fuel, (gcVisits s k sp fuel {}).Nodup) := by
  refine ⟨gcLoop_ends_iff, gcVisits_nodup_iff, fun hs => ?_⟩
  have hzero := noneAtZero_of_positive hs k
  exact ⟨gcLoop_ends_iff.mpr hzero, gcVisits_nodup_iff.mpr hzero⟩

theorem gc_ends_iff_timelyRun : ∃ s, system.ReachableWhen (fun _ cmd => Positive cmd) s ∧
      (s [1]).writes.entries.map Prod.fst = [8, 6] ∧
      ∃ fuel w, gcLoop s [1] 7 fuel {} = some w := by
  obtain ⟨s, hs, he⟩ : ∃ s,
      system.runWhen (fun _ cmd => Positive cmd) Store.empty timelyRun = some s ∧
      (s [1]).writes.entries.map Prod.fst = [8, 6] := ⟨_, rfl, rfl⟩
  have hr := StepSystem.reachableWhen_of_run .start hs
  exact ⟨s, hr, he, ((gc_ends_iff s [1] 7).2.2 hr).1⟩

theorem gc_endless_reachable : ∃ s, system.Reachable s ∧ (∀ fuel, gcLoop s [1] 10 fuel {} = none) ∧
      gcVisits s [1] 10 3 {} = [0, 0, 0] := by
  obtain ⟨s, hs, hq, hv⟩ : ∃ s,
      system.runFrom Store.empty [.checkTxnStatusWithCleanup [1] 0 9 true] = some s ∧
      (0, rollbackWrite 0) ∈ (s [1]).writes.entries ∧ gcVisits s [1] 10 3 {} = [0, 0, 0] :=
    ⟨_, rfl, by decide, by decide⟩
  exact ⟨s, StepSystem.reachable_of_run .start hs, fun fuel => gcLoop_eq_none 10 hq rfl fuel {},
    hv⟩

end Gc
