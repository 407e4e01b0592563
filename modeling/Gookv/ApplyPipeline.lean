/-
The asynchronous apply pipeline of a peer.
-/
import Gookv.StepSystem
import Gookv.RaftEntry

namespace ApplyPipeline

open Raftstore List StepSystem

structure Log where
  entry : ℕ → Entry
  index_eq : ∀ i, (entry i).index = i

/-- A fresh peer, one created for a split region, or one recovered from the engine. -/
structure Boot (log : Log) where
  applyState : ApplyState
  first : ℕ
  first_le : first ≤ applyState.truncatedIndex + 1
  truncated_ok : ∀ i ≤ applyState.truncatedIndex, (log.entry i).isData = true →
    i ≤ applyState.appliedIndex

def freshBoot (log : Log) : Boot log where
  applyState := ⟨0, 0, 0⟩
  first := 1
  first_le := le_rfl
  truncated_ok _ hi _ := hi

structure ApplyTask where
  entries : List Entry
  lastCommittedIndex : ℕ
  deriving DecidableEq

abbrev ReadCtx := List UInt8

/-- The peer, the pool and the engine: `next` is the next entry Raft hands out, `running` has the
batches applied and not yet reported, `lost` the tasks refused, `answered` the reads answered with
nil. -/
structure State where
  applyState : ApplyState
  next : ℕ
  isLeader : Bool
  applyInFlight : Bool
  pendingApplyTasks : List ApplyTask
  pendingReads : List (ReadCtx × ℕ)
  taskCh : List ApplyTask
  running : List ℕ
  mailbox : List ℕ
  stopped : Bool
  applied : List ℕ
  lost : List ApplyTask
  answered : List ℕ
  deriving DecidableEq

open State

/-- A `raft.Ready`: the entries committed, a change of leadership, and the confirmed reads. -/
structure Ready where
  count : ℕ
  softState : Option Bool
  readStates : List (ReadCtx × ℕ)

inductive Action
  | ready (rd : Ready)
  | readIndex (ctx : ReadCtx)
  | cancelRead (ctx : ReadCtx)
  | applyTask
  | sendResult
  | applyResult
  | stop

def committedEntries (log : Log) (s : State) (rd : Ready) : List Entry :=
  (List.range' s.next rd.count).map log.entry

def State.sweepReads (s : State) : State :=
  let done := fun r : ReadCtx × ℕ => decide (0 < r.2 ∧ r.2 ≤ s.applyState.appliedIndex)
  { s with
    answered := s.answered ++ (s.pendingReads.filter done).map Prod.snd
    pendingReads := s.pendingReads.filter fun r => !done r }

def State.readState (s : State) (rs : ReadCtx × ℕ) : State :=
  if s.pendingReads.any (fun r => r.1 == rs.1) then
    if rs.2 ≤ s.applyState.appliedIndex then
      { s with
        answered := s.answered ++ [rs.2]
        pendingReads := s.pendingReads.filter fun r => r.1 != rs.1 }
    else
      { s with pendingReads := s.pendingReads.map fun r => if r.1 = rs.1 then rs else r }
  else s

def State.softState (s : State) : Option Bool → State
  | none => s
  | some true => { s with isLeader := true }
  | some false => { s with isLeader := false, pendingReads := [] }

def State.submit (s : State) (task : ApplyTask) : State :=
  if s.stopped then { s with applyInFlight := false, lost := s.lost ++ [task] }
  else { s with applyInFlight := true, taskCh := s.taskCh ++ [task] }

def State.setAppliedIndex (s : State) (index : ℕ) : State :=
  { s with applyState := { s.applyState with appliedIndex := index } }

def State.submitToApplyWorker (s : State) (entries : List Entry) (last : ℕ) : State :=
  let dataEntries := entries.filter Entry.isData
  if dataEntries = [] then (s.setAppliedIndex last).sweepReads
  else if s.applyInFlight then
    { s with pendingApplyTasks := s.pendingApplyTasks ++ [⟨dataEntries, last⟩] }
  else s.submit ⟨dataEntries, last⟩

def State.takeEntries (log : Log) (s : State) (rd : Ready) : State :=
  if rd.count = 0 then s
  else
    let entries := committedEntries log s rd
    let s₁ := { s with applyState := entries.foldl applyAdminEntry s.applyState }
    let s₂ := s₁.submitToApplyWorker entries (s.next + rd.count - 1)
    { s₂ with next := s.next + rd.count }

def State.handleReady (log : Log) (s : State) (rd : Ready) : State :=
  (rd.readStates.foldl State.readState ((s.softState rd.softState).takeEntries log rd)).sweepReads

def State.handleReadIndexRequest (s : State) (ctx : ReadCtx) : State :=
  if s.isLeader then
    { s with pendingReads := (ctx, 0) :: s.pendingReads.filter fun r => r.1 != ctx }
  else s

def State.advanceApplied (s : State) (index : ℕ) : State :=
  if s.applyState.appliedIndex < index then (s.setAppliedIndex index).sweepReads else s

def State.submitNext (s : State) : State :=
  match s.pendingApplyTasks with
  | [] => { s with applyInFlight := false }
  | task :: tasks => { s with pendingApplyTasks := tasks }.submit task

/-! ### The system -/

def step (log : Log) (s : State) : Action → Option State
  | .ready rd => some (s.handleReady log rd)
  | .readIndex ctx => some (s.handleReadIndexRequest ctx)
  | .cancelRead ctx => some { s with pendingReads := s.pendingReads.filter fun r => r.1 != ctx }
  | .applyTask =>
    match s.taskCh with
    | [] => none
    | task :: tasks =>
      some { s with
        taskCh := tasks
        running := s.running ++ [task.lastCommittedIndex]
        applied := task.entries.map Entry.index ++ s.applied }
  | .sendResult =>
    match s.running with
    | [] => none
    | index :: rest => some { s with running := rest, mailbox := s.mailbox ++ [index] }
  | .applyResult =>
    match s.mailbox with
    | [] => none
    | index :: rest => some (({ s with mailbox := rest }.advanceApplied index).submitNext)
  | .stop => some { s with stopped := true }

def start {log : Log} (boot : Boot log) : State where
  applyState := boot.applyState
  next := boot.first
  isLeader := false
  applyInFlight := false
  pendingApplyTasks := []
  pendingReads := []
  taskCh := []
  running := []
  mailbox := []
  stopped := false
  applied := []
  lost := []
  answered := []

def system {log : Log} (boot : Boot log) : StepSystem State Action := ⟨start boot, step log⟩

variable {log : Log} {boot : Boot log} {s s' : State} {a : Action}

def Applied (boot : Boot log) (s : State) (i : ℕ) : Prop :=
  i ≤ boot.applyState.appliedIndex ∨ i ∈ s.applied

instance (i : ℕ) : Decidable (Applied boot s i) := inferInstanceAs (Decidable (_ ∨ _))

def DataApplied (boot : Boot log) (s : State) (n : ℕ) : Prop :=
  ∀ i ≤ n, (log.entry i).isData = true → Applied boot s i

structure Truthful (boot : Boot log) (s : State) : Prop where
  applied : DataApplied boot s s.applyState.appliedIndex
  truncated : DataApplied boot s s.applyState.truncatedIndex
  answered : ∀ r ∈ s.answered, DataApplied boot s r

def State.outstanding (s : State) : List ApplyTask :=
  s.taskCh ++ s.pendingApplyTasks ++ s.lost

def Drained (boot : Boot log) (s : State) : Action → Prop
  | .ready rd => 0 < rd.count → (committedEntries log s rd).filter Entry.isData = [] →
      ∀ task ∈ s.outstanding, ∀ e ∈ task.entries, Applied boot s e.index
  | _ => True

instance (s : State) : (a : Action) → Decidable (Drained boot s a)
  | .ready rd => inferInstanceAs (Decidable (0 < rd.count →
      (committedEntries log s rd).filter Entry.isData = [] →
        ∀ task ∈ s.outstanding, ∀ e ∈ task.entries, Applied boot s e.index))
  | .readIndex _ | .cancelRead _ | .applyTask | .sendResult | .applyResult | .stop =>
    isTrue trivial

/-! ### The queue of tasks

`A` is the set of entries in the engine, `q` the tasks on their way to a worker in
the order they were handed out, `lost` the refused ones. -/

def ApplyTask.holds (task : ApplyTask) (i : ℕ) : Prop := i ∈ task.entries.map Entry.index

structure QueueInv (log : Log) (A : ℕ → Prop) (next : ℕ) (q lost : List ApplyTask) : Prop where
  handed : ∀ i < next, (log.entry i).isData = true → A i ∨ ∃ t ∈ q ++ lost, t.holds i
  below : ∀ t ∈ q, t.lastCommittedIndex < next
  sorted : q.Pairwise fun t t' => t.lastCommittedIndex < t'.lastCommittedIndex
  covered : lost = [] → ∀ t ∈ q, ∀ i ≤ t.lastCommittedIndex, (log.entry i).isData = true →
    A i ∨ ∃ t' ∈ q, t'.lastCommittedIndex ≤ t.lastCommittedIndex ∧ t'.holds i

section

variable {A : ℕ → Prop} {next n : ℕ} {q lost : List ApplyTask} {t : ApplyTask}

def batchTask (log : Log) (next n : ℕ) : ApplyTask :=
  ⟨((List.range' next n).map log.entry).filter Entry.isData, next + n - 1⟩

variable {i : ℕ}

theorem holds_batchTask (hle : next ≤ i) (hlt : i < next + n)
    (hdata : (log.entry i).isData = true) : (batchTask log next n).holds i := by
  have hmem : log.entry i ∈ ((range' next n).map log.entry).filter Entry.isData := by
    refine mem_filter.mpr ⟨mem_map_of_mem ?_, hdata⟩
    exact mem_range'_1.mpr ⟨hle, hlt⟩
  exact mem_map.mpr ⟨_, hmem, log.index_eq i⟩

theorem not_isData_of_batch (hno : ((List.range' next n).map log.entry).filter Entry.isData = [])
    (hle : next ≤ i) (hlt : i < next + n) : (log.entry i).isData = false := by
  have hmem : log.entry i ∈ (range' next n).map log.entry :=
    mem_map_of_mem (mem_range'_1.mpr ⟨hle, hlt⟩)
  simpa using filter_eq_nil_iff.mp hno _ hmem

theorem QueueInv.mono {B : ℕ → Prop} (h : QueueInv log A next q lost) (hAB : ∀ i, A i → B i) :
    QueueInv log B next q lost where
  handed i hi hdata := (h.handed i hi hdata).imp_left (hAB i)
  below := h.below
  sorted := h.sorted
  covered hlost t ht i hi hdata := (h.covered hlost t ht i hi hdata).imp_left (hAB i)

theorem QueueInv.push (h : QueueInv log A next q []) (hn : 0 < n) :
    QueueInv log A (next + n) (q ++ [batchTask log next n]) [] := by
  have hlast : (batchTask log next n).lastCommittedIndex = next + n - 1 := rfl
  have hnew : ∀ i < next + n, (log.entry i).isData = true →
      A i ∨ ∃ t ∈ q ++ [batchTask log next n],
        t.lastCommittedIndex ≤ next + n - 1 ∧ t.holds i := by
    intro i hi hdata
    by_cases hold : i < next
    · refine (h.handed i hold hdata).imp_right ?_
      rintro ⟨t, ht, hti⟩
      rw [append_nil] at ht
      have := h.below t ht
      exact ⟨t, mem_append_left _ ht, by omega, hti⟩
    · refine .inr ⟨_, mem_append_right _ (mem_singleton_self _), by omega, ?_⟩
      exact holds_batchTask (by omega) hi hdata
  refine ⟨?_, ?_, ?_, ?_⟩
  · intro i hi hdata
    refine (hnew i hi hdata).imp_right ?_
    rintro ⟨t, ht, -, hti⟩
    exact ⟨t, by rwa [append_nil], hti⟩
  · intro t ht
    rcases mem_append.mp ht with ht | ht
    · have := h.below t ht
      omega
    · rw [mem_singleton.mp ht]
      omega
  · refine pairwise_append.mpr ⟨h.sorted, pairwise_singleton _ _, ?_⟩
    intro t ht t' ht'
    rw [mem_singleton.mp ht']
    have := h.below t ht
    omega
  · intro _ t ht i hi hdata
    rcases mem_append.mp ht with ht | ht
    · refine (h.covered rfl t ht i hi hdata).imp_right ?_
      rintro ⟨t', ht', hle, hti⟩
      exact ⟨t', mem_append_left _ ht', hle, hti⟩
    · rw [mem_singleton.mp ht] at hi ⊢
      exact hnew i (by omega) hdata

theorem QueueInv.refuse (h : QueueInv log A next q lost) :
    QueueInv log A (next + n) q (lost ++ [batchTask log next n]) := by
  refine ⟨?_, ?_, h.sorted, fun hnil => absurd hnil (by simp)⟩
  · intro i hi hdata
    by_cases hold : i < next
    · refine (h.handed i hold hdata).imp_right ?_
      rintro ⟨t, ht, hti⟩
      exact ⟨t, by rw [← append_assoc]; exact mem_append_left _ ht, hti⟩
    · exact .inr ⟨_, by simp, holds_batchTask (by omega) hi hdata⟩
  · intro t ht
    have := h.below t ht
    omega

theorem QueueInv.refuse_head (h : QueueInv log A next (t :: q) lost) :
    QueueInv log A next q (lost ++ [t]) := by
  refine ⟨?_, fun t' ht' => h.below t' (mem_cons_of_mem _ ht'), h.sorted.of_cons,
    fun hnil => absurd hnil (by simp)⟩
  intro i hi hdata
  refine (h.handed i hi hdata).imp_right ?_
  rintro ⟨t', ht', hti⟩
  refine ⟨t', ?_, hti⟩
  simp only [cons_append, mem_cons, mem_append, not_mem_nil, or_false] at ht' ⊢
  tauto

theorem QueueInv.skip (h : QueueInv log A next q lost)
    (hno : ((List.range' next n).map log.entry).filter Entry.isData = []) :
    QueueInv log A (next + n) q lost := by
  refine ⟨?_, ?_, h.sorted, h.covered⟩
  · intro i hi hdata
    by_cases hold : i < next
    · exact h.handed i hold hdata
    · rw [not_isData_of_batch hno (by omega) hi] at hdata
      exact absurd hdata Bool.false_ne_true
  · intro t ht
    have := h.below t ht
    omega

theorem QueueInv.pop (h : QueueInv log A next (t :: q) []) :
    QueueInv log (fun i => t.holds i ∨ A i) next q [] ∧
      ∀ i ≤ t.lastCommittedIndex, (log.entry i).isData = true → t.holds i ∨ A i := by
  have hafter : ∀ t' ∈ q, t.lastCommittedIndex < t'.lastCommittedIndex :=
    (pairwise_cons.mp h.sorted).1
  refine ⟨⟨?_, fun t' ht' => h.below t' (mem_cons_of_mem _ ht'), h.sorted.of_cons, ?_⟩, ?_⟩
  · intro i hi hdata
    rcases h.handed i hi hdata with hA | ⟨t', ht', hti⟩
    · exact .inl (.inr hA)
    · rcases mem_cons.mp ht' with rfl | ht'
      · exact .inl (.inl hti)
      · exact .inr ⟨t', ht', hti⟩
  · intro _ t₁ ht₁ i hi hdata
    rcases h.covered rfl t₁ (mem_cons_of_mem _ ht₁) i hi hdata with hA | ⟨t', ht', hle, hti⟩
    · exact .inl (.inr hA)
    · rcases mem_cons.mp ht' with rfl | ht'
      · exact .inl (.inl hti)
      · exact .inr ⟨t', ht', hle, hti⟩
  · intro i hi hdata
    rcases h.covered rfl t mem_cons_self i hi hdata with hA | ⟨t', ht', hle, hti⟩
    · exact .inr hA
    · -- a later task has a larger index, so what covers `i` is the first task itself
      rcases mem_cons.mp ht' with rfl | ht'
      · exact .inl hti
      · have := hafter t' ht'
        omega

end

/-! ### The invariant -/

structure Inv (boot : Boot log) (s : State) : Prop where
  truthful : Truthful boot s
  queue : QueueInv log (Applied boot s) s.next (s.taskCh ++ s.pendingApplyTasks) s.lost
  flight : s.taskCh.length + s.running.length + s.mailbox.length = s.applyInFlight.toNat
  reported : ∀ n ∈ s.running ++ s.mailbox, DataApplied boot s n
  refused : s.lost ≠ [] → s.stopped = true ∧ s.applyInFlight = false
  idle : s.applyInFlight = false → s.lost = [] → s.pendingApplyTasks = []

theorem DataApplied.of_le {m n : ℕ} (h : DataApplied boot s n) (hmn : m ≤ n) :
    DataApplied boot s m :=
  fun i hi => h i (hi.trans hmn)

theorem DataApplied.mono {n : ℕ} (h : DataApplied boot s n) (hsub : s.applied ⊆ s'.applied) :
    DataApplied boot s' n :=
  fun i hi hdata => (h i hi hdata).imp_right fun hmem => hsub hmem

theorem Truthful.mono (h : Truthful boot s) (hstate : s'.applyState = s.applyState)
    (hans : s'.answered = s.answered) (hsub : s.applied ⊆ s'.applied) : Truthful boot s' where
  applied := hstate ▸ h.applied.mono hsub
  truncated := hstate ▸ h.truncated.mono hsub
  answered r hr := (h.answered r (hans ▸ hr)).mono hsub

theorem inv_start (boot : Boot log) : Inv boot (start boot) where
  truthful :=
    { applied := fun _ hi _ => .inl hi
      truncated := fun i hi hdata => .inl (boot.truncated_ok i hi hdata)
      answered := fun _ hr => absurd hr List.not_mem_nil }
  queue :=
    { handed := by
        intro i hi hdata
        have hi : i < boot.first := hi
        have := boot.first_le
        exact .inl (.inl (boot.truncated_ok i (by omega) hdata))
      below := fun _ ht => absurd ht not_mem_nil
      sorted := Pairwise.nil
      covered := fun _ _ ht => absurd ht not_mem_nil }
  flight := rfl
  reported := fun _ hn => absurd hn not_mem_nil
  refused := fun h => absurd rfl h
  idle := fun _ _ => rfl

section
variable (h : Inv boot s)
include h

theorem Inv.reads (isLeader : Bool) (pendingReads : List (ReadCtx × ℕ))
    {answered : List ℕ} (hans : ∀ r ∈ answered, DataApplied boot s r) :
    Inv boot { s with isLeader, pendingReads, answered } :=
  ⟨⟨h.truthful.applied, h.truthful.truncated, hans⟩, h.queue, h.flight, h.reported, h.refused,
    h.idle⟩

theorem Inv.setApplyState {st : ApplyState} (happlied : DataApplied boot s st.appliedIndex)
    (htrunc : DataApplied boot s st.truncatedIndex) : Inv boot { s with applyState := st } :=
  ⟨⟨happlied, htrunc, h.truthful.answered⟩, h.queue, h.flight, h.reported, h.refused, h.idle⟩

theorem Inv.sweepReads : Inv boot s.sweepReads := by
  refine h.reads s.isLeader _ ?_
  intro r hr
  rcases mem_append.mp hr with hr | hr
  · exact h.truthful.answered r hr
  · obtain ⟨⟨ctx, index⟩, hmem, rfl⟩ := mem_map.mp hr
    have hdone := (mem_filter.mp hmem).2
    exact h.truthful.applied.of_le (of_decide_eq_true hdone).2

theorem Inv.readState (rs : ReadCtx × ℕ) : Inv boot (s.readState rs) := by
  unfold State.readState
  split
  · split
    · rename_i hle
      refine h.reads s.isLeader _ ?_
      intro r hr
      rcases List.mem_append.mp hr with hr | hr
      · exact h.truthful.answered r hr
      · rw [List.mem_singleton.mp hr]
        exact h.truthful.applied.of_le hle
    · exact h.reads s.isLeader _ h.truthful.answered
  · exact h

theorem Inv.readStates (rss : List (ReadCtx × ℕ)) : Inv boot (rss.foldl State.readState s) := by
  induction rss generalizing s with
  | nil => exact h
  | cons rs rss ih => exact ih (h.readState rs)

theorem Inv.softState (lead : Option Bool) : Inv boot (s.softState lead) := by
  rcases lead with _ | _ | _
  · exact h
  · exact h.reads false [] h.truthful.answered
  · exact h.reads true s.pendingReads h.truthful.answered

theorem Inv.handleReadIndexRequest (ctx : ReadCtx) : Inv boot (s.handleReadIndexRequest ctx) := by
  unfold State.handleReadIndexRequest
  split
  · exact h.reads s.isLeader _ h.truthful.answered
  · exact h

theorem Inv.applyAdmin (es : List Entry) :
    Inv boot { s with applyState := es.foldl applyAdminEntry s.applyState } := by
  obtain ⟨happlied, htrunc⟩ := applyAdminEntries_truncatedIndex es s.applyState
  refine h.setApplyState ?_ ?_
  · rw [happlied]
    exact h.truthful.applied
  · rcases htrunc with heq | hle
    · rw [heq]
      exact h.truthful.truncated
    · exact h.truthful.applied.of_le hle

theorem Inv.idle_pool (hidle : s.applyInFlight = false) :
    s.taskCh = [] ∧ s.running = [] ∧ s.mailbox = [] := by
  have hflight := h.flight
  rw [hidle, Bool.toNat_false] at hflight
  exact ⟨eq_nil_of_length_eq_zero (by omega), eq_nil_of_length_eq_zero (by omega),
    eq_nil_of_length_eq_zero (by omega)⟩

theorem Inv.lost_eq_nil (hflight : s.applyInFlight = true) : s.lost = [] := by
  by_contra hlost
  rw [(h.refused hlost).2] at hflight
  exact Bool.false_ne_true hflight

theorem Inv.take_admin {n : ℕ} (hn : 0 < n)
    (hno : ((List.range' s.next n).map log.entry).filter Entry.isData = [])
    (hdrained : ∀ task ∈ s.outstanding, ∀ e ∈ task.entries, Applied boot s e.index) :
    Inv boot { (s.setAppliedIndex (s.next + n - 1)).sweepReads with next := s.next + n } := by
  have hlast : DataApplied boot s (s.next + n - 1) := by
    intro i hi hdata
    by_cases hold : i < s.next
    · rcases h.queue.handed i hold hdata with happ | ⟨t, ht, hti⟩
      · exact happ
      · obtain ⟨e, he, rfl⟩ := mem_map.mp hti
        exact hdrained t ht e he
    · rw [not_isData_of_batch hno (by omega) (by omega)] at hdata
      exact absurd hdata Bool.false_ne_true
  have hset : Inv boot (s.setAppliedIndex (s.next + n - 1)) :=
    h.setApplyState hlast h.truthful.truncated
  have hsweep := hset.sweepReads
  exact ⟨hsweep.truthful.mono rfl rfl (Subset.refl _), hsweep.queue.skip hno, hsweep.flight,
    hsweep.reported, hsweep.refused, hsweep.idle⟩

theorem Inv.take_buffered {n : ℕ} (hn : 0 < n) (hflight : s.applyInFlight = true) :
    Inv boot { s with
      pendingApplyTasks := s.pendingApplyTasks ++ [batchTask log s.next n]
      next := s.next + n } := by
  have hlost := h.lost_eq_nil hflight
  have hqueue := h.queue
  rw [hlost] at hqueue
  refine ⟨h.truthful.mono rfl rfl (Subset.refl _), ?_, h.flight, h.reported, h.refused,
    fun hidle => ?_⟩
  · have hpush := hqueue.push hn
    rw [append_assoc] at hpush
    simp only [hlost]
    exact hpush
  · exact absurd (hflight.symm.trans hidle) (by simp)

theorem Inv.take_submitted {n : ℕ} (hn : 0 < n) (hidle : s.applyInFlight = false) :
    Inv boot { s.submit (batchTask log s.next n) with next := s.next + n } := by
  obtain ⟨htask, hrun, hmail⟩ := h.idle_pool hidle
  unfold submit
  split
  · rename_i hstopped
    refine ⟨h.truthful.mono rfl rfl (Subset.refl _), h.queue.refuse, ?_, h.reported,
      fun _ => ⟨hstopped, rfl⟩, ?_⟩
    · simp [htask, hrun, hmail]
    · exact fun _ hnil => absurd hnil (by simp)
  · rename_i hrunning
    -- a pool that runs has refused nothing, so nothing waits either
    have hlost : s.lost = [] := by
      by_contra hlost
      exact hrunning (h.refused hlost).1
    have hpending := h.idle hidle hlost
    have hqueue := h.queue
    rw [hlost, hpending, append_nil] at hqueue
    refine ⟨h.truthful.mono rfl rfl (Subset.refl _), ?_, ?_, h.reported,
      fun hne => absurd hlost hne, ?_⟩
    · simp only [hlost, hpending, append_nil]
      exact hqueue.push hn
    · simp [htask, hrun, hmail]
    · exact fun hfalse => absurd hfalse (by simp)

theorem Inv.takeEntries (rd : Ready) (hC : Drained boot s (.ready rd)) :
    Inv boot (s.takeEntries log rd) := by
  unfold State.takeEntries
  split
  · exact h
  · rename_i hne
    have hn : 0 < rd.count := Nat.pos_of_ne_zero hne
    have hadmin := h.applyAdmin (committedEntries log s rd)
    dsimp only [State.submitToApplyWorker]
    split
    · rename_i hno
      exact hadmin.take_admin hn hno (hC hn hno)
    · split
      · rename_i hflight
        exact hadmin.take_buffered hn hflight
      · rename_i hidle
        exact hadmin.take_submitted hn (by simpa using hidle)

end

theorem drained_softState {rd : Ready} (lead : Option Bool) (hC : Drained boot s (.ready rd)) :
    Drained boot (s.softState lead) (.ready rd) := by
  rcases lead with _ | _ | _ <;> exact hC

theorem Inv.handleReady (h : Inv boot s) (rd : Ready) (hC : Drained boot s (.ready rd)) :
    Inv boot (s.handleReady log rd) :=
  (((h.softState rd.softState).takeEntries rd
    (drained_softState rd.softState hC)).readStates rd.readStates).sweepReads

/-! ### The workers and their results -/

theorem Inv.applyTask (h : Inv boot s) {task : ApplyTask} {tasks : List ApplyTask}
    (htask : s.taskCh = task :: tasks) : Inv boot { s with
      taskCh := tasks
      running := s.running ++ [task.lastCommittedIndex]
      applied := task.entries.map Entry.index ++ s.applied } := by
  have hflight := h.flight
  rw [htask, length_cons] at hflight
  have hbusy : s.applyInFlight = true := by
    by_contra hidle
    rw [Bool.not_eq_true] at hidle
    rw [hidle, Bool.toNat_false] at hflight
    omega
  have hlost := h.lost_eq_nil hbusy
  have hqueue := h.queue
  rw [htask, cons_append, hlost] at hqueue
  obtain ⟨hrest, hupto⟩ := hqueue.pop
  have hsub : s.applied ⊆ task.entries.map Entry.index ++ s.applied :=
    subset_append_right _ _
  -- the engine holds what it held and the entries of the task
  have hengine : ∀ i, task.holds i ∨ Applied boot s i →
      i ≤ boot.applyState.appliedIndex ∨ i ∈ task.entries.map Entry.index ++ s.applied := by
    rintro i (hi | hi | hi)
    · exact .inr (mem_append_left _ hi)
    · exact .inl hi
    · exact .inr (hsub hi)
  refine ⟨h.truthful.mono rfl rfl hsub, ?_, ?_, ?_, fun hne => absurd hlost hne, ?_⟩
  · simp only [hlost]
    exact hrest.mono hengine
  · simp only [length_append, length_singleton]
    omega
  · intro n hn
    rcases mem_append.mp hn with hn | hn
    · rcases mem_append.mp hn with hn | hn
      · exact (h.reported n (mem_append_left _ hn)).mono hsub
      · rw [mem_singleton.mp hn]
        exact fun i hi hdata => hengine i (hupto i hi hdata)
    · exact (h.reported n (mem_append_right _ hn)).mono hsub
  · exact fun hidle => absurd (hbusy.symm.trans hidle) (by simp)

variable {rest : List ℕ} {index : ℕ}

theorem Inv.sendResult (h : Inv boot s) (hrun : s.running = index :: rest) :
    Inv boot { s with running := rest, mailbox := s.mailbox ++ [index] } := by
  have hflight := h.flight
  have hreported := h.reported
  rw [hrun] at hflight hreported
  refine ⟨h.truthful.mono rfl rfl (Subset.refl _), h.queue, ?_, ?_, h.refused, h.idle⟩
  · simp only [length_append, length_cons, length_nil] at hflight ⊢
    omega
  · intro n hn
    refine hreported n ?_
    simp only [mem_append, mem_cons, not_mem_nil, or_false] at hn ⊢
    tauto

theorem truthful_advanceApplied (h : Truthful boot s)
    (hindex : DataApplied boot s index) : Truthful boot (s.advanceApplied index) := by
  unfold advanceApplied
  split
  · refine ⟨hindex, h.truncated, ?_⟩
    intro r hr
    rcases mem_append.mp hr with hr | hr
    · exact h.answered r hr
    · obtain ⟨⟨ctx, readIndex⟩, hmem, rfl⟩ := mem_map.mp hr
      exact hindex.of_le (of_decide_eq_true (mem_filter.mp hmem).2).2
  · exact h

theorem advanceApplied_eq (s : State) (index : ℕ) : ∃ st reads answered, s.advanceApplied index =
      { s with applyState := st, pendingReads := reads, answered := answered } := by
  unfold advanceApplied
  split
  · exact ⟨_, _, _, rfl⟩
  · exact ⟨s.applyState, s.pendingReads, s.answered, rfl⟩

theorem Inv.applyResult (h : Inv boot s) (hmail : s.mailbox = index :: rest) :
    Inv boot (({ s with mailbox := rest }.advanceApplied index).submitNext) := by
  have hindex : DataApplied boot s index :=
    h.reported index (mem_append_right _ (hmail ▸ mem_cons_self))
  have hbase : Truthful boot { s with mailbox := rest } :=
    h.truthful.mono rfl rfl (Subset.refl _)
  have htruthful := truthful_advanceApplied hbase hindex
  have hflight := h.flight
  rw [hmail, length_cons] at hflight
  have hbusy : s.applyInFlight = true := by
    by_contra hidle
    rw [Bool.not_eq_true] at hidle
    rw [hidle, Bool.toNat_false] at hflight
    omega
  rw [hbusy, Bool.toNat_true] at hflight
  -- the result was all that was in flight
  have htask : s.taskCh = [] := eq_nil_of_length_eq_zero (by omega)
  have hrun : s.running = [] := eq_nil_of_length_eq_zero (by omega)
  have hrest : rest = [] := eq_nil_of_length_eq_zero (by omega)
  have hlost := h.lost_eq_nil hbusy
  have hqueue := h.queue
  rw [htask, nil_append, hlost] at hqueue
  obtain ⟨st, reads, answered, heq⟩ := advanceApplied_eq { s with mailbox := rest } index
  rw [heq] at htruthful ⊢
  unfold submitNext
  dsimp only
  split
  · rename_i hpending
    rw [hpending] at hqueue
    refine ⟨htruthful.mono rfl rfl (Subset.refl _), ?_, ?_, ?_, fun hne => absurd hlost hne,
      fun _ _ => hpending⟩
    · simp only [htask, hpending, hlost]
      exact hqueue
    · simp [htask, hrun, hrest]
    · simp [hrun, hrest]
  · rename_i task tasks hpending
    rw [hpending] at hqueue
    unfold submit
    dsimp only
    split
    · rename_i hstopped
      refine ⟨htruthful.mono rfl rfl (Subset.refl _), ?_, ?_, ?_, fun _ => ⟨hstopped, rfl⟩, ?_⟩
      · simp only [htask, hlost]
        exact hqueue.refuse_head
      · simp [htask, hrun, hrest]
      · simp [hrun, hrest]
      · exact fun _ hnil => absurd hnil (by simp)
    · refine ⟨htruthful.mono rfl rfl (Subset.refl _), ?_, ?_, ?_, fun hne => absurd hlost hne, ?_⟩
      · simp only [htask, hlost]
        exact hqueue
      · simp [htask, hrun, hrest]
      · simp [hrun, hrest]
      · exact fun hfalse => absurd hfalse (by simp)

theorem Inv.stop (h : Inv boot s) : Inv boot { s with stopped := true } :=
  ⟨h.truthful.mono rfl rfl (Subset.refl _), h.queue, h.flight, h.reported,
    fun hne => ⟨rfl, (h.refused hne).2⟩, h.idle⟩

@[simp] theorem next_sweepReads (s : State) : s.sweepReads.next = s.next := rfl

@[simp] theorem next_submit (s : State) (task : ApplyTask) : (s.submit task).next = s.next := by
  unfold submit
  split <;> rfl

@[simp] theorem next_softState (s : State) (lead : Option Bool) :
    (s.softState lead).next = s.next := by
  rcases lead with _ | _ | _ <;> rfl

@[simp] theorem next_readState (s : State) (rs : ReadCtx × ℕ) : (s.readState rs).next = s.next := by
  unfold readState
  split
  · split <;> rfl
  · rfl

theorem next_readStates (s : State) (rss : List (ReadCtx × ℕ)) :
    (rss.foldl State.readState s).next = s.next := by
  induction rss generalizing s with
  | nil => rfl
  | cons rs rss ih => rw [foldl_cons, ih, next_readState]

theorem next_handleReady (log : Log) (s : State) (rd : Ready) :
    (s.handleReady log rd).next = s.next + rd.count := by
  rw [handleReady, next_sweepReads, next_readStates, takeEntries]
  split
  · rename_i hzero
    rw [next_softState, hzero, Nat.add_zero]
  · simp

theorem next_step (ha : ∀ rd, a ≠ .ready rd) (hs : step log s a = some s') :
    s'.next = s.next := by
  cases a with
  | ready rd => exact absurd rfl (ha rd)
  | readIndex ctx =>
    cases hs
    unfold handleReadIndexRequest
    split <;> rfl
  | cancelRead ctx =>
    cases hs
    rfl
  | applyTask | sendResult =>
    simp only [step] at hs
    split at hs <;> cases hs
    rfl
  | applyResult =>
    simp only [step] at hs
    split at hs
    · cases hs
    · rename_i index rest _
      cases hs
      obtain ⟨st, reads, answered, heq⟩ := advanceApplied_eq { s with mailbox := rest } index
      rw [heq, submitNext]
      split
      · rfl
      · rw [next_submit]
  | stop =>
    cases hs
    rfl

theorem Inv.step (h : Inv boot s) (hC : Drained boot s a)
    (hs : step log s a = some s') : Inv boot s' := by
  cases a with
  | ready rd =>
    cases hs
    exact h.handleReady rd hC
  | readIndex ctx =>
    cases hs
    exact h.handleReadIndexRequest ctx
  | cancelRead ctx =>
    cases hs
    exact h.reads s.isLeader _ h.truthful.answered
  | applyTask =>
    simp only [ApplyPipeline.step] at hs
    split at hs
    · cases hs
    · rename_i htask
      cases hs
      exact h.applyTask htask
  | sendResult =>
    simp only [ApplyPipeline.step] at hs
    split at hs
    · cases hs
    · rename_i hrun
      cases hs
      exact h.sendResult hrun
  | applyResult =>
    simp only [ApplyPipeline.step] at hs
    split at hs
    · cases hs
    · rename_i hmail
      cases hs
      exact h.applyResult hmail
  | stop =>
    cases hs
    exact h.stop

/-- **The applied index never runs ahead of the data** in a run whose batches
without data entries find the queue drained. -/
theorem truthful_of_drained (h : (system boot).ReachableWhen (Drained boot) s) : Truthful boot s :=
  (h.invariant (P := Inv boot) (inv_start boot) fun _ _ _ hinv hC hs => hinv.step hC hs).truthful

def noopLog : Log where
  entry i := ⟨.normal, 1, i, if i = 1 then [0, 0, 0, 0, 0, 0, 0, 1, 10] else []⟩
  index_eq _ := rfl

def noopBoot : Boot noopLog := freshBoot noopLog

def drainedRun : List Action :=
  [.ready ⟨1, none, []⟩, .applyTask, .sendResult, .applyResult, .ready ⟨1, none, []⟩]

theorem truthful_drainedRun :
    ∃ s, (system noopBoot).runWhen (Drained noopBoot) (start noopBoot) drainedRun = some s ∧
      s.applyState.appliedIndex = 2 ∧ Truthful noopBoot s := by
  obtain ⟨s, hs, hindex⟩ : ∃ s, (system noopBoot).runWhen (Drained noopBoot) (start noopBoot)
      drainedRun = some s ∧ s.applyState.appliedIndex = 2 := ⟨_, rfl, rfl⟩
  exact ⟨s, hs, hindex, truthful_of_drained (reachableWhen_of_run .start hs)⟩

def aheadRun : List Action := [.ready ⟨1, none, []⟩, .ready ⟨1, none, []⟩]

theorem ahead_reachable : ∃ s, (system noopBoot).Reachable s ∧ s.applyState.appliedIndex = 2 ∧
      (noopLog.entry 1).isData = true ∧ ¬ Applied noopBoot s 1 ∧ ¬ Truthful noopBoot s := by
  obtain ⟨s, hs, hindex, hnot⟩ : ∃ s, (system noopBoot).runFrom (start noopBoot) aheadRun = some s ∧
      s.applyState.appliedIndex = 2 ∧ ¬ Applied noopBoot s 1 := ⟨_, rfl, rfl, by decide⟩
  refine ⟨s, reachable_of_run .start hs, hindex, by decide, hnot, fun htruthful => ?_⟩
  exact hnot (htruthful.applied 1 (by omega) (by decide))

/-! ### Where the entries are -/

def indices (tasks : List ApplyTask) : List ℕ := tasks.flatMap fun t => t.entries.map Entry.index

/-- What the engine has, and what waits in a task or was in a refused one. -/
def State.held (s : State) : List ℕ := s.applied ++ indices s.outstanding

theorem held_readStates (s : State) (rss : List (ReadCtx × ℕ)) :
    (rss.foldl State.readState s).held = s.held := by
  induction rss generalizing s with
  | nil => rfl
  | cons rs rss ih =>
    rw [foldl_cons, ih, State.readState]
    split_ifs <;> rfl

theorem held_submit (s : State) (task : ApplyTask) :
    (s.submit task).held ~ s.held ++ indices [task] := by
  unfold submit held
  split_ifs <;> simp only [State.outstanding, indices] <;> grind

theorem held_takeEntries (s : State) (rd : Ready) :
    (s.takeEntries log rd).held ~ s.held ++ indices [batchTask log s.next rd.count] := by
  unfold State.takeEntries
  split_ifs with hzero
  · simp [hzero, batchTask, indices]
  · show (submitToApplyWorker _ _ _).held ~ _
    dsimp only [submitToApplyWorker]
    split_ifs with hno
    · rw [show indices [batchTask log s.next rd.count] = [] by
        simpa [indices, batchTask, committedEntries] using hno, append_nil]
      rfl
    · unfold held
      simp only [State.outstanding, indices, committedEntries, batchTask]
      grind
    · exact held_submit _ _

theorem held_step (ha : ∀ rd, a ≠ .ready rd) (hs : step log s a = some s') : s'.held ~ s.held := by
  cases a with
  | ready rd => exact absurd rfl (ha rd)
  | readIndex ctx =>
    cases hs
    unfold handleReadIndexRequest
    split <;> rfl
  | cancelRead ctx => cases hs; rfl
  | applyTask =>
    simp only [ApplyPipeline.step] at hs
    split at hs <;> cases hs
    simp only [held, State.outstanding, indices, *]
    grind
  | sendResult =>
    simp only [ApplyPipeline.step] at hs
    split at hs <;> cases hs
    rfl
  | applyResult =>
    simp only [ApplyPipeline.step] at hs
    split at hs <;> cases hs
    rename_i index rest _
    obtain ⟨st, reads, answered, heq⟩ := advanceApplied_eq { s with mailbox := rest } index
    rw [heq, submitNext]
    split
    · rfl
    · rename_i hpending
      refine (held_submit _ _).trans ?_
      simp only [State.outstanding, held, indices] at hpending ⊢
      rw [hpending]
      grind
  | stop => cases hs; rfl

/-- **No entry is forgotten or applied twice**: a data entry that was handed out is once in the
engine or in a task, which waits or was refused. -/
theorem entries_accounted (boot : Boot log) (s : { s : State // (system boot).Reachable s }) :
    boot.first ≤ s.1.next ∧
      s.1.held ~ indices [batchTask log boot.first (s.1.next - boot.first)] := by
  refine s.2.invariant (P := fun s => boot.first ≤ s.next ∧
    s.held ~ indices [batchTask log boot.first (s.next - boot.first)]) ?_ ?_
  · simp [system, start, held, State.outstanding, indices, batchTask]
  · rintro s s' a ⟨hle, hperm⟩ - hs
    by_cases ha : ∃ rd, a = .ready rd
    · obtain ⟨rd, rfl⟩ := ha
      cases hs
      have hnext : (s.softState rd.softState).next = s.next := next_softState s _
      have hsoft : (s.softState rd.softState).held = s.held := by
        rcases rd.softState with _ | _ | _ <;> rfl
      -- the batches handed out before and this one are one stretch of the log
      have hsplit := @range'_append_1 boot.first (s.next - boot.first) rd.count
      rw [Nat.add_sub_cancel' hle, ← Nat.sub_add_comm hle] at hsplit
      rw [next_handleReady]
      refine ⟨by omega, ?_⟩
      show State.held (foldl _ _ _) ~ _
      rw [held_readStates]
      refine (held_takeEntries _ rd).trans ?_
      rw [hsoft, hnext]
      simpa [indices, batchTask, ← hsplit] using hperm.append_right _
    · simp only [not_exists] at ha
      rw [next_step ha hs]
      exact ⟨hle, (held_step ha hs).trans hperm⟩

/-- The first entry waits in a task while the second, which has no data, is taken. -/
theorem accounted_aheadRun : ∃ s, (system noopBoot).Reachable s ∧ s.next = 3 ∧
    s.held ~ indices [batchTask noopLog 1 2] := by
  obtain ⟨s, hs, hnext⟩ : ∃ s, (system noopBoot).runFrom (start noopBoot) aheadRun = some s ∧
      s.next = 3 := ⟨_, rfl, rfl⟩
  have hreach := reachable_of_run .start hs
  have hheld := (entries_accounted noopBoot ⟨s, hreach⟩).2
  rw [hnext] at hheld
  exact ⟨s, hreach, hnext, hheld⟩

end ApplyPipeline
