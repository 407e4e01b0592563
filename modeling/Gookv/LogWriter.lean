/-
Persistence by one batch for many regions: `RaftLogWriter` of `internal/raftstore`, with
`BuildWriteTask` and `ApplyWriteTaskPostPersist`, against `SaveReady`.

`SaveReady` takes over the new hard state before it commits, so a commit that fails leaves
it in memory only.
-/
import Gookv.LogBacking

namespace LogWriter

open Raftstore List Function

variable {ε : Type}

structure State where
  cf : RaftCF
  storage : ℕ → PeerStorage

def saveReady (commit : Option ε) (s : State) (regionID : ℕ) (rd : Ready) : Option ε × State :=
  let storage := s.storage regionID
  let storage := if rd.hardState = {} then storage else { storage with hardState := rd.hardState }
  match commit with
  | some e => (some e, { s with storage := update s.storage regionID storage })
  | none => (none, {
      cf := commitBatch s.cf (readyOps regionID rd)
      storage := update s.storage regionID (storage.postPersist {} rd.entries) })

def saveAll (commit : Option ε) : State → List (ℕ × Ready) → List (Option ε) × State
  | s, [] => ([], s)
  | s, (regionID, rd) :: rds =>
    let (e, s) := saveReady commit s regionID rd
    let (es, s) := saveAll commit s rds
    (e :: es, s)

/-- A cycle of the writer: the tasks in one batch, and its error to all of them. -/
def writeBatch (commit : Option ε) (s : State) (rds : List (ℕ × Ready)) : List (Option ε) × State :=
  let tasks := rds.map fun p => buildWriteTask p.1 p.2
  (tasks.map fun _ => commit,
    match commit with
    | some _ => s
    | none => {
        cf := processBatch s.cf tasks
        storage := fun r => (tasks.filter fun task => task.regionID = r).foldl
          PeerStorage.applyWriteTaskPostPersist (s.storage r) })

def writeBatches (commit : Option ε) : State → List (List (ℕ × Ready)) → List (Option ε) × State
  | s, [] => ([], s)
  | s, rds :: groups =>
    let (es, s) := writeBatch commit s rds
    let (es', s) := writeBatches commit s groups
    (es ++ es', s)

/-! ### What a region has afterwards -/

def State.at (s : State) (r : ℕ) : RaftDisk × PeerStorage := (s.cf r, s.storage r)

def persist (x : RaftDisk × PeerStorage) (rd : Ready) : RaftDisk × PeerStorage :=
  (x.1.afterReady rd, x.2.postPersist rd.hardState rd.entries)

def own (r : ℕ) (rds : List (ℕ × Ready)) : List Ready := (rds.filter fun p => p.1 = r).map Prod.snd

theorem own_cons (r : ℕ) (p : ℕ × Ready) (rds : List (ℕ × Ready)) :
    own r (p :: rds) = if p.1 = r then p.2 :: own r rds else own r rds := by
  rw [own, filter_cons]
  by_cases hr : p.1 = r <;> simp [hr, own]

theorem commitBatch_readyOps (cf : RaftCF) (p : ℕ × Ready) (r : ℕ) :
    commitBatch cf (readyOps p.1 p.2) r = if p.1 = r then (cf r).afterReady p.2 else cf r := by
  rw [commitBatch_apply]
  split
  · rename_i hr
    rw [filter_eq_self.mpr, foldl_put_readyOps]
    intro op hop
    simp [regionID_of_mem_readyOps hop, hr]
  · rename_i hr
    rw [filter_eq_nil_iff.mpr]
    · rfl
    · intro op hop
      simp [regionID_of_mem_readyOps hop, hr]

theorem saveAll_at (s : State) (rds : List (ℕ × Ready)) (r : ℕ) :
    (saveAll (none : Option ε) s rds).2.at r = (own r rds).foldl persist (s.at r) := by
  induction rds generalizing s with
  | nil => rfl
  | cons p rds ih =>
    have hstep : (saveReady (none : Option ε) s p.1 p.2).2.at r =
        if p.1 = r then persist (s.at r) p.2 else s.at r := by
      have hdisk := commitBatch_readyOps s.cf p r
      by_cases hr : p.1 = r
      · subst hr
        by_cases hhs : p.2.hardState = {} <;>
          simp_all [State.at, saveReady, persist, PeerStorage.postPersist]
      · simp_all [State.at, saveReady, update_of_ne (Ne.symm hr)]
    refine (ih (saveReady (none : Option ε) s p.1 p.2).2).trans ?_
    rw [hstep, own_cons]
    split <;> rfl

theorem writeBatch_at (s : State) (rds : List (ℕ × Ready)) (r : ℕ) :
    (writeBatch (none : Option ε) s rds).2.at r = (own r rds).foldl persist (s.at r) := by
  have hdisk : ∀ cf : RaftCF, processBatch cf (rds.map fun p => buildWriteTask p.1 p.2) r =
      (own r rds).foldl RaftDisk.afterReady (cf r) := by
    induction rds with
    | nil => exact fun _ => rfl
    | cons p rds ih =>
      intro cf
      have happend : processBatch cf ((p :: rds).map fun p => buildWriteTask p.1 p.2) =
          processBatch (commitBatch cf (readyOps p.1 p.2))
            (rds.map fun p => buildWriteTask p.1 p.2) := by
        rw [processBatch, map_cons, flatMap_cons, commitBatch, foldl_append]
        rfl
      rw [happend, ih, commitBatch_readyOps, own_cons]
      split <;> rfl
  have hstorage : ∀ st : PeerStorage, ((rds.map fun p => buildWriteTask p.1 p.2).filter
      fun task => task.regionID = r).foldl PeerStorage.applyWriteTaskPostPersist st =
      (own r rds).foldl (fun st rd => st.postPersist rd.hardState rd.entries) st := by
    intro st
    rw [filter_map, foldl_map, own, foldl_map]
    simp only [applyWriteTaskPostPersist_buildWriteTask]
    rfl
  have hpair : ∀ (l : List Ready) (x : RaftDisk × PeerStorage), l.foldl persist x =
      (l.foldl RaftDisk.afterReady x.1,
        l.foldl (fun st rd => st.postPersist rd.hardState rd.entries) x.2) := by
    intro l
    induction l with
    | nil => exact fun _ => rfl
    | cons rd l ih => exact fun x => ih (persist x rd)
  rw [hpair]
  exact Prod.ext (hdisk s.cf) (hstorage (s.storage r))

theorem writeBatches_at (s : State) (groups : List (List (ℕ × Ready))) (r : ℕ) :
    (writeBatches (none : Option ε) s groups).2.at r =
      (own r groups.flatten).foldl persist (s.at r) := by
  induction groups generalizing s with
  | nil => rfl
  | cons rds groups ih =>
    refine (ih (writeBatch (none : Option ε) s rds).2).trans ?_
    rw [writeBatch_at, flatten_cons, own, own, own, filter_append, map_append,
      foldl_append]

theorem writeBatches_error (e : ε) (s : State) (groups : List (List (ℕ × Ready))) :
    writeBatches (some e) s groups = (groups.flatten.map fun _ => some e, s) := by
  induction groups with
  | nil => rfl
  | cons rds groups ih => simp [writeBatches, writeBatch, ih, comp_def]

/-- **Batched persistence is inline persistence when the commits succeed**; a commit that
fails changes nothing and is reported to all, but `SaveReady` leaves the memory unchanged
only if the Ready has no new hard state. -/
theorem persistence_iff (s : State) (groups : List (List (ℕ × Ready))) (e : ε) :
    (∀ r, (writeBatches (none : Option ε) s groups).2.at r =
        (saveAll (none : Option ε) s (groups.flatten.filter fun p => p.1 = r)).2.at r) ∧
      writeBatches (some e) s groups = (groups.flatten.map fun _ => some e, s) ∧
      ∀ r rd, saveReady (some e) s r rd = (some e, s) ↔
        rd.hardState = {} ∨ rd.hardState = (s.storage r).hardState := by
  refine ⟨fun r => ?_, writeBatches_error e s groups, fun r rd => ?_⟩
  · rw [writeBatches_at, saveAll_at, own, own, filter_filter]
    simp
  · obtain ⟨cf, storage⟩ := s
    by_cases hhs : rd.hardState = {}
    · simp [saveReady, hhs]
    · simp only [saveReady, hhs, if_false, false_or, Prod.mk.injEq, true_and, State.mk.injEq,
        update_eq_self_iff]
      constructor
      · intro h
        exact congrArg PeerStorage.hardState h
      · intro h
        rw [h]

theorem hardState_kept_in_memory :
    let s : State := ⟨fun _ => {}, fun _ => .new⟩
    let failed := saveReady (some ()) s 1 { hardState := { term := 1 } }
    failed.1 = some () ∧ (failed.2.cf 1).hardState = none ∧
      (failed.2.storage 1).hardState.term = 1 ∧ (s.storage 1).hardState.term = 0 :=
  ⟨rfl, rfl, rfl, rfl⟩

end LogWriter
