/-
Batched read indexes (`internal/server/readindex_batcher.go`).
-/
import Gookv.StepSystem

namespace ReadIndex

open Function List Option StepSystem

/-! ### The batcher -/

def maxBatchSize : ℕ := 64

def stoppedError : String := "readindex batcher stopped"

def timeoutError (regionID : ℕ) : String :=
  s!"raftstore: read index timeout for region {regionID}"

/-- Where a call of `Wait` stands. -/
inductive Caller
  | absent
  | called
  | waiting
  | returned (err : Option String)
  deriving DecidableEq

inductive TimerState
  | unused
  | armed
  | fired
  | done
  deriving DecidableEq

structure Timers where
  timer : Option ℕ
  state : ℕ → TimerState
  next : ℕ

def Timers.set (ts : Timers) (t : ℕ) (st : TimerState) : Timers :=
  { ts with state := update ts.state t st }

def Timers.stop (ts : Timers) : Timers :=
  match ts.timer with
  | none => ts
  | some t =>
    { ts.set t (if ts.state t = .armed then .done else ts.state t) with timer := none }

def Timers.arm (ts : Timers) : Timers :=
  match ts.timer with
  | some _ => ts
  | none => ⟨some ts.next, update ts.state ts.next .armed, ts.next + 1⟩

/-- A goroutine of `dispatchAndFanout` with the channels it has still to send to. -/
structure Dispatch where
  batch : List ℕ
  began : Option ℕ := none
  result : Option (Option String) := none
  left : List ℕ

/-- The batcher, goroutines and callers, and the history: when each called, and what was sent to
it. -/
structure State where
  timers : Timers := ⟨none, fun _ => .unused, 0⟩
  stopped : Bool := false
  pending : List ℕ := []
  dispatches : List Dispatch := []
  callers : ℕ → Caller := fun _ => .absent
  doneCh : ℕ → Option (Option String) := fun _ => none
  clock : ℕ := 0
  calledAt : ℕ → ℕ := fun _ => 0
  sends : ℕ → List (Option ℕ × Option String) := fun _ => []

namespace State

def takeBatch (s : State) : State :=
  { s with
    dispatches := s.dispatches ++ [{ batch := s.pending, left := s.pending }]
    pending := [] }

open State

def flushLocked (s : State) : State :=
  let s := { s with timers := s.timers.stop }
  if s.pending = [] ∨ s.stopped then s else s.takeBatch

def setCaller (s : State) (w : ℕ) (c : Caller) : State :=
  { s with callers := update s.callers w c }

def call (s : State) (w : ℕ) : State :=
  { s.setCaller w .called with
    calledAt := update s.calledAt w s.clock
    clock := s.clock + 1 }

def enqueue (s : State) (w : ℕ) : State :=
  { s.setCaller w .waiting with pending := s.pending ++ [w] }

def wait (s : State) (w : ℕ) : State :=
  if s.stopped then s.setCaller w (.returned (some stoppedError))
  else
    let s := s.enqueue w
    let s := { s with timers := s.timers.arm }
    if maxBatchSize ≤ s.pending.length then s.flushLocked else s

def stop (s : State) : State :=
  { s with
    stopped := true
    timers := s.timers.stop
    doneCh := fun w => if w ∈ s.pending then some (some stoppedError) else s.doneCh w
    sends := fun w =>
      if w ∈ s.pending then s.sends w ++ [(none, some stoppedError)] else s.sends w
    pending := [] }

def setDispatch (s : State) (d : ℕ) (D : Dispatch) : State :=
  { s with dispatches := s.dispatches.set d D }

def begin (s : State) (d : ℕ) (D : Dispatch) : State :=
  { s.setDispatch d { D with began := some s.clock } with clock := s.clock + 1 }

def send (s : State) (w d : ℕ) (err : Option String) : State :=
  { s with
    doneCh := update s.doneCh w (some err)
    sends := update s.sends w (s.sends w ++ [(some d, err)]) }

def receive (s : State) (w : ℕ) : State :=
  { s with doneCh := update s.doneCh w none }

end State

inductive Action
  | call (w : ℕ)
  | wait (w : ℕ)
  | fire (t : ℕ)
  | flush (t : ℕ)
  | stop
  | begin (d : ℕ)
  | finish (d : ℕ) (err : Option String)
  | fanout (d : ℕ)
  | receive (w : ℕ)
  | timeout (w : ℕ)

/-- One step; none where a send would block. -/
def step (regionID : ℕ) (s : State) : Action → Option State
  | .call w => if s.callers w = .absent then some (s.call w) else none
  | .wait w => if s.callers w = .called then some (s.wait w) else none
  | .fire t =>
    if s.timers.state t = .armed then some { s with timers := s.timers.set t .fired } else none
  | .flush t =>
    if s.timers.state t = .fired then
      some ({ s with timers := s.timers.set t .done } : State).flushLocked
    else none
  | .stop => if s.pending.Nodup ∧ ∀ w ∈ s.pending, s.doneCh w = none then some s.stop else none
  | .begin d => (s.dispatches[d]?.filter (·.began = none)).map (s.begin d)
  | .finish d err =>
    (s.dispatches[d]?.filter fun D => D.began ≠ none ∧ D.result = none).map fun D =>
      s.setDispatch d { D with result := some err }
  | .fanout d =>
    match s.dispatches[d]? with
    | some ⟨batch, began, some err, w :: left⟩ =>
      if s.doneCh w = none then
        some ((s.send w d err).setDispatch d ⟨batch, began, some err, left⟩) else none
    | _ => none
  | .receive w =>
    match s.callers w, s.doneCh w with
    | .waiting, some err => some ((s.receive w).setCaller w (.returned err))
    | _, _ => none
  | .timeout w =>
    if s.callers w = .waiting then
      some (s.setCaller w (.returned (some (timeoutError regionID))))
    else none

def system (regionID : ℕ) : StepSystem State Action := ⟨{}, step regionID⟩

variable {a : Action} {c : Caller} {err : Option String}

section

variable {r : ℕ} {s s' : State} {w d : ℕ}

theorem step_begin (h : step r s (.begin d) = some s') :
    ∃ D, s.dispatches[d]? = some D ∧ D.began = none ∧ s' = s.begin d D := by
  obtain ⟨D, hD, rfl⟩ := map_eq_some_iff.mp h
  obtain ⟨hD, hnone⟩ := filter_eq_some_iff.mp hD
  exact ⟨D, hD, by simpa using hnone, rfl⟩

theorem step_finish (h : step r s (.finish d err) = some s') :
    ∃ D, s.dispatches[d]? = some D ∧ D.began ≠ none ∧ D.result = none ∧
      s' = s.setDispatch d { D with result := some err } := by
  obtain ⟨D, hD, rfl⟩ := map_eq_some_iff.mp h
  obtain ⟨hD, hguard⟩ := filter_eq_some_iff.mp hD
  obtain ⟨hbegan, hnone⟩ := of_decide_eq_true hguard
  exact ⟨D, hD, hbegan, hnone, rfl⟩

theorem step_fanout (h : step r s (.fanout d) = some s') :
    ∃ D err w left, s.dispatches[d]? = some D ∧ D.result = some err ∧ D.left = w :: left ∧
      s' = (s.send w d err).setDispatch d { D with left := left } := by
  rw [step] at h
  split at h
  · rename_i batch began err w left hD
    obtain ⟨-, rfl⟩ := of_guard h
    exact ⟨_, err, w, left, hD, rfl, rfl, rfl⟩
  · cases h

theorem step_receive (h : step r s (.receive w) = some s') :
    ∃ err, s.callers w = .waiting ∧ s.doneCh w = some err ∧
      s' = (s.receive w).setCaller w (.returned err) := by
  rw [step] at h
  split at h
  · rename_i err hw hch
    exact ⟨err, hw, hch, (some.inj h).symm⟩
  · cases h

end

structure Armed (s : State) : Prop where
  timer : ∀ t, s.timers.timer = some t →
    s.timers.state t = .armed ∨ s.timers.state t = .fired
  pending : s.pending ≠ [] → s.timers.timer ≠ none
  stopped : s.stopped = true → s.pending = []

@[simp] theorem Timers.stop_timer (ts : Timers) : ts.stop.timer = none := by
  rw [stop]
  cases h : ts.timer with
  | none => exact h
  | some t => rfl

theorem Timers.arm_ne_none (ts : Timers) : ts.arm.timer ≠ none := by
  rw [arm]
  cases h : ts.timer with
  | none => simp
  | some t => simp [h]

theorem flushLocked_armed {s : State} (h : s.stopped = true → s.pending = []) :
    Armed s.flushLocked := by
  rw [State.flushLocked]
  dsimp only
  split_ifs with hflush
  · have hnil : s.pending = [] := hflush.elim id h
    exact ⟨by simp, fun hne => absurd hnil hne, h⟩
  · exact ⟨by simp [State.takeBatch], fun hne => absurd rfl hne, fun _ => rfl⟩

theorem Armed.wait {s : State} (h : Armed s) (w : ℕ) : Armed (s.wait w) := by
  rw [State.wait]
  split_ifs with hstop
  · exact ⟨h.timer, h.pending, h.stopped⟩
  dsimp only
  split_ifs with hfull
  · exact flushLocked_armed fun hs => absurd hs hstop
  · refine ⟨fun t ht => ?_, fun _ => Timers.arm_ne_none _, fun hs => absurd hs hstop⟩
    -- the timer that was there, or a new one
    change s.timers.arm.timer = some t at ht
    show s.timers.arm.state t = .armed ∨ s.timers.arm.state t = .fired
    rw [Timers.arm] at ht ⊢
    cases htimer : s.timers.timer with
    | none =>
      simp only [htimer] at ht ⊢
      cases ht
      exact .inl (update_self _ _ _)
    | some t' =>
      simp only [htimer] at ht ⊢
      exact h.timer t (htimer.trans ht)

theorem Armed.step {r : ℕ} {s s' : State} (h : Armed s) (hs : step r s a = some s') : Armed s' := by
  cases a with
  | call w | timeout w =>
    obtain ⟨-, rfl⟩ := of_guard hs
    exact ⟨h.timer, h.pending, h.stopped⟩
  | wait w =>
    obtain ⟨-, rfl⟩ := of_guard hs
    exact h.wait w
  | fire t =>
    obtain ⟨-, rfl⟩ := of_guard hs
    refine ⟨fun t' ht' => ?_, h.pending, h.stopped⟩
    show update s.timers.state t .fired t' = .armed ∨ _ = _
    by_cases heq : t' = t
    · subst heq
      exact .inr (update_self _ _ _)
    · simpa [Timers.set, heq] using h.timer t' ht'
  | flush t =>
    obtain ⟨-, rfl⟩ := of_guard hs
    exact flushLocked_armed h.stopped
  | stop =>
    obtain ⟨-, rfl⟩ := of_guard hs
    exact ⟨by simp [State.stop], fun hne => absurd rfl hne, fun _ => rfl⟩
  | begin d =>
    obtain ⟨D, -, -, rfl⟩ := step_begin hs
    exact ⟨h.timer, h.pending, h.stopped⟩
  | finish d err =>
    obtain ⟨D, -, -, -, rfl⟩ := step_finish hs
    exact ⟨h.timer, h.pending, h.stopped⟩
  | fanout d =>
    obtain ⟨D, err, w, left, -, -, -, rfl⟩ := step_fanout hs
    exact ⟨h.timer, h.pending, h.stopped⟩
  | receive w =>
    obtain ⟨err, -, -, rfl⟩ := step_receive hs
    exact ⟨h.timer, h.pending, h.stopped⟩

/-! ### One result for each channel -/

def State.credit (s : State) (w : ℕ) : ℕ :=
  s.pending.count w + (s.dispatches.map (·.left.count w)).sum + (s.sends w).length

structure Held (s : State) : Prop where
  credit : ∀ w, s.credit w ≤ 1
  new : ∀ w, s.callers w = .absent ∨ s.callers w = .called → s.credit w = 0
  doneCh : ∀ w, s.sends w = [] → s.doneCh w = none

theorem sum_map_set {α : Type} (f : α → ℕ) {l : List α} {d : ℕ} {D : α} (D' : α)
    (h : l[d]? = some D) : ((l.set d D').map f).sum + f D = (l.map f).sum + f D' := by
  induction l generalizing d with
  | nil => cases h
  | cons E l ih =>
    cases d with
    | zero =>
      cases h
      simp only [set_cons_zero, map_cons, sum_cons]
      omega
    | succ d =>
      have hrest := ih h
      simp only [set_cons_succ, map_cons, sum_cons]
      omega

section

variable {s s' : State} {w d : ℕ} {D : Dispatch}

theorem Held.of_credit (hs : Held s) (hcredit : ∀ v, s'.credit v = s.credit v)
    (hnew : ∀ v, s'.callers v = .absent ∨ s'.callers v = .called →
      s.callers v = .absent ∨ s.callers v = .called)
    (hdone : ∀ v, s'.sends v = [] → s'.doneCh v = none) : Held s' :=
  ⟨fun v => (hcredit v).trans_le (hs.credit v),
    fun v hv => (hcredit v).trans (hs.new v (hnew v hv)), hdone⟩

theorem Held.setCaller (hs : Held s)
    (hc : c = .absent ∨ c = .called → s.callers w = .absent) : Held (s.setCaller w c) := by
  refine hs.of_credit (fun v => rfl) (fun v hv => ?_) hs.doneCh
  change update s.callers w c v = .absent ∨ update s.callers w c v = _ at hv
  by_cases heq : v = w
  · subst heq
    rw [update_self] at hv
    exact .inl (hc hv)
  · rwa [update_of_ne heq] at hv

theorem Held.setDispatch (hs : Held s) (hD : s.dispatches[d]? = some D) (D' : Dispatch)
    (hleft : D'.left = D.left) : Held (s.setDispatch d D') := by
  refine hs.of_credit (fun v => ?_) (fun v hv => hv) hs.doneCh
  have hsum := sum_map_set (·.left.count v) D' hD
  simp only [State.credit, State.setDispatch, hleft] at hsum ⊢
  omega

theorem credit_takeBatch (s : State) (v : ℕ) : s.takeBatch.credit v = s.credit v := by
  simp only [State.credit, State.takeBatch, map_append, map_cons, map_nil,
    sum_append, sum_cons, sum_nil, count_nil]
  omega

theorem Held.flushLocked (hs : Held s) : Held s.flushLocked := by
  rw [State.flushLocked]
  dsimp only
  split_ifs with hflush
  · exact ⟨hs.credit, hs.new, hs.doneCh⟩
  · exact hs.of_credit (fun v => credit_takeBatch _ v) (fun v hv => hv) hs.doneCh

theorem Held.enqueue (hs : Held s) (hw : s.callers w = .called) : Held (s.enqueue w) := by
  have hcredit : ∀ v, (s.enqueue w).credit v = s.credit v + if w = v then 1 else 0 := by
    intro v
    simp only [State.credit, State.enqueue, State.setCaller, count_append,
      count_singleton, beq_iff_eq]
    omega
  refine ⟨fun v => ?_, fun v hv => ?_, hs.doneCh⟩
  · rw [hcredit]
    split_ifs with heq
    · rw [← heq, hs.new w (.inr hw)]
    · exact hs.credit v
  · have hne : v ≠ w := by
      rintro rfl
      simp [State.enqueue, State.setCaller] at hv
    rw [hcredit, if_neg hne.symm]
    exact hs.new v (by simpa [State.enqueue, State.setCaller, hne] using hv)

theorem Held.wait (hs : Held s) (hw : s.callers w = .called) : Held (s.wait w) := by
  rw [State.wait]
  split_ifs with hstop
  · exact hs.setCaller (by simp)
  have henqueue : Held { s.enqueue w with timers := (s.enqueue w).timers.arm } :=
    { hs.enqueue hw with }
  dsimp only
  split_ifs with hfull
  · exact henqueue.flushLocked
  · exact henqueue

theorem Held.stop (hs : Held s) : Held s.stop := by
  refine hs.of_credit (fun v => ?_) (fun v hv => hv) fun v hv => ?_
  · have hle := hs.credit v
    simp only [State.credit, State.stop, count_nil] at hle ⊢
    split_ifs with hm
    · have hpos := List.count_pos_iff.mpr hm
      rw [length_append, length_singleton]
      omega
    · rw [count_eq_zero_of_not_mem hm]
  · simp only [State.stop] at hv ⊢
    split_ifs at hv ⊢ with hm
    · exact absurd hv (by simp)
    · exact hs.doneCh v hv

theorem Held.fanout (hs : Held s) (hD : s.dispatches[d]? = some D) {left : List ℕ}
    (hleft : D.left = w :: left) (err : Option String) :
    Held ((s.send w d err).setDispatch d { D with left := left }) := by
  refine hs.of_credit (fun v => ?_) (fun v hv => hv) fun v hv => ?_
  · have hsum := sum_map_set (·.left.count v) { D with left := left } hD
    simp only [State.credit, State.setDispatch, State.send, hleft, count_cons,
      update_apply] at hsum ⊢
    by_cases heq : v = w
    · subst heq
      simp only [beq_self_eq_true, if_true, length_append, length_singleton] at hsum ⊢
      omega
    · simp only [beq_eq_false_iff_ne.mpr (Ne.symm heq), Bool.false_eq_true, heq, if_false] at hsum ⊢
      omega
  · simp only [State.setDispatch, State.send, update_apply] at hv ⊢
    split_ifs at hv ⊢ with heq
    · exact absurd hv (by simp)
    · exact hs.doneCh v hv

theorem Held.step {r : ℕ} (h : Held s) (hs : step r s a = some s') : Held s' := by
  cases a with
  | call w =>
    obtain ⟨hw, rfl⟩ := of_guard hs
    exact { h.setCaller (w := w) (c := .called) fun _ => hw with }
  | wait w =>
    obtain ⟨hw, rfl⟩ := of_guard hs
    exact h.wait hw
  | fire t =>
    obtain ⟨-, rfl⟩ := of_guard hs
    exact { h with }
  | flush t =>
    obtain ⟨-, rfl⟩ := of_guard hs
    exact Held.flushLocked { h with }
  | stop =>
    obtain ⟨-, rfl⟩ := of_guard hs
    exact h.stop
  | begin d =>
    obtain ⟨D, hD, -, rfl⟩ := step_begin hs
    exact { h.setDispatch hD { D with began := some s.clock } rfl with }
  | finish d err =>
    obtain ⟨D, hD, -, -, rfl⟩ := step_finish hs
    exact h.setDispatch hD _ rfl
  | fanout d =>
    obtain ⟨D, err, w, left, hD, -, hleft, rfl⟩ := step_fanout hs
    exact h.fanout hD hleft err
  | receive w =>
    obtain ⟨err, -, -, rfl⟩ := step_receive hs
    have hreceive : Held (s.receive w) := by
      refine h.of_credit (fun v => rfl) (fun v hv => hv) fun v hv => ?_
      simp only [State.receive, update_apply]
      split_ifs with heq
      · rfl
      · exact h.doneCh v hv
    exact hreceive.setCaller (by simp)
  | timeout w =>
    obtain ⟨-, rfl⟩ := of_guard hs
    exact h.setCaller (by simp)

end

/-! ### When a dispatch began -/

/-- A goroutine sends to its batch, after its `Dispatch`, which began after the calls. -/
structure Dispatch.Ok (s : State) (D : Dispatch) : Prop where
  left : D.left ⊆ D.batch
  result : D.result ≠ none → D.began ≠ none
  called : ∀ w ∈ D.batch, s.callers w ≠ .absent
  batch : ∀ w ∈ D.batch, ∀ t, D.began = some t → s.calledAt w < t

structure History (s : State) : Prop where
  called : ∀ w, s.callers w ≠ .absent → s.calledAt w < s.clock
  pending : ∀ w ∈ s.pending, s.callers w ≠ .absent
  dispatches : ∀ D ∈ s.dispatches, D.Ok s
  sent : ∀ w d err, (some d, err) ∈ s.sends w →
    ∃ D, s.dispatches[d]? = some D ∧ w ∈ D.batch ∧ D.result = some err
  stopped : ∀ w err, (none, err) ∈ s.sends w → err ≠ none
  doneCh : ∀ w err, s.doneCh w = some err → ∃ o, (o, err) ∈ s.sends w
  returned : ∀ w, s.callers w = .returned none → ∃ d, (some d, none) ∈ s.sends w

section

variable {s s' : State} {w d : ℕ} {D : Dispatch}

section
variable (hs : History s)
include hs

theorem History.tick : History { s with clock := s.clock + 1 } :=
  { hs with
    called := fun w hw => (hs.called w hw).trans (Nat.lt_succ_self _)
    dispatches := fun D hD => { hs.dispatches D hD with } }

theorem History.setCaller (hw : s.callers w ≠ .absent)
    (hne : c ≠ .absent) (hc : c = .returned none → ∃ d, (some d, none) ∈ s.sends w) :
    History (s.setCaller w c) := by
  have hmoved : ∀ v, (s.setCaller w c).callers v ≠ .absent ↔ s.callers v ≠ .absent := by
    intro v
    by_cases heq : v = w
    · subst heq
      simp [State.setCaller, hne, hw]
    · simp [State.setCaller, heq]
  refine { hs with
    called := fun v hv => hs.called v ((hmoved v).mp hv)
    pending := fun v hv => (hmoved v).mpr (hs.pending v hv)
    dispatches := fun D hD => { hs.dispatches D hD with
      called := fun v hv => (hmoved v).mpr ((hs.dispatches D hD).called v hv) }
    returned := fun v hv => ?_ }
  by_cases heq : v = w
  · subst heq
    exact hc (by simpa [State.setCaller] using hv)
  · exact hs.returned v (by simpa [State.setCaller, heq] using hv)

theorem History.call (hw : s.callers w = .absent) : History (s.call w) := by
  have hne : ∀ v, s.callers v ≠ .absent → v ≠ w := fun v hv heq => hv (heq ▸ hw)
  have hcaller : ∀ v, s.callers v ≠ .absent → (s.call w).callers v ≠ .absent := by
    intro v hv
    simpa [State.call, State.setCaller, hne v hv] using hv
  refine { hs with
    called := fun v hv => ?_
    pending := fun v hv => hcaller v (hs.pending v hv)
    dispatches := fun D hD => ?_
    returned := fun v hv => ?_ }
  · show update s.calledAt w s.clock v < s.clock + 1
    by_cases heq : v = w
    · rw [heq, update_self]
      exact Nat.lt_succ_self _
    · rw [update_of_ne heq]
      have hold := hs.called v (by simpa [State.call, State.setCaller, heq] using hv)
      exact hold.trans (Nat.lt_succ_self _)
  · have hok := hs.dispatches D hD
    refine ⟨hok.left, hok.result, fun v hv => hcaller v (hok.called v hv), fun v hv t ht => ?_⟩
    show update s.calledAt w s.clock v < t
    rw [update_of_ne (hne v (hok.called v hv))]
    exact hok.batch v hv t ht
  · have hvw : v ≠ w := by
      rintro rfl
      simp [State.call, State.setCaller] at hv
    exact hs.returned v (by simpa [State.call, State.setCaller, hvw] using hv)

theorem History.enqueue (hw : s.callers w = .called) : History (s.enqueue w) := by
  have hcaller : History (s.setCaller w .waiting) :=
    hs.setCaller (by simp [hw]) (by simp) (by simp)
  refine { hcaller with
    pending := fun v hv => ?_
    dispatches := fun D hD => { hcaller.dispatches D hD with } }
  rcases List.mem_append.mp hv with hv | hv
  · exact hcaller.pending v hv
  · obtain rfl := List.mem_singleton.mp hv
    simp [State.enqueue, State.setCaller]

theorem History.takeBatch : History s.takeBatch := by
  refine { hs with
    pending := fun v hv => absurd hv not_mem_nil
    dispatches := fun D hD => ?_
    sent := fun v d err hv => ?_ }
  · rcases List.mem_append.mp hD with hD | hD
    · exact { hs.dispatches D hD with }
    · obtain rfl := List.mem_singleton.mp hD
      exact ⟨List.Subset.refl _, fun hne => absurd rfl hne, hs.pending, fun v _ t ht => by cases ht⟩
  · obtain ⟨D, hD, hrest⟩ := hs.sent v d err hv
    refine ⟨D, ?_, hrest⟩
    rw [State.takeBatch, getElem?_append_left (List.getElem?_eq_some_iff.mp hD).1]
    exact hD

theorem History.flushLocked : History s.flushLocked := by
  have htimers : History { s with timers := s.timers.stop } :=
    { hs with dispatches := fun D hD => { hs.dispatches D hD with } }
  rw [State.flushLocked]
  dsimp only
  split_ifs with hflush
  · exact htimers
  · exact htimers.takeBatch

theorem History.wait (hw : s.callers w = .called) : History (s.wait w) := by
  rw [State.wait]
  split_ifs with hstop
  · exact hs.setCaller (by simp [hw]) (by simp) (by simp)
  have henqueue : History { s.enqueue w with timers := (s.enqueue w).timers.arm } :=
    { hs.enqueue hw with dispatches := fun D hD => { (hs.enqueue hw).dispatches D hD with } }
  dsimp only
  split_ifs with hfull
  · exact henqueue.flushLocked
  · exact henqueue

theorem History.setDispatch (hD : s.dispatches[d]? = some D) (D' : Dispatch)
    (hok : D'.Ok s) (hbatch : D'.batch = D.batch)
    (hresult : D.result = none ∨ D'.result = D.result) : History (s.setDispatch d D') := by
  refine { hs with dispatches := fun E hE => ?_, sent := fun v e err hv => ?_ }
  · rcases mem_or_eq_of_mem_set hE with hE | rfl
    · exact { hs.dispatches E hE with }
    · exact { hok with }
  · obtain ⟨E, hE, hmem, hres⟩ := hs.sent v e err hv
    by_cases heq : e = d
    · subst heq
      obtain rfl := Option.some.inj (hD.symm.trans hE)
      have hlt := (List.getElem?_eq_some_iff.mp hD).1
      refine ⟨D', getElem?_set_self hlt, hbatch ▸ hmem, ?_⟩
      rcases hresult with hnone | hsame
      · exact absurd (hnone.symm.trans hres) (by simp)
      · exact hsame.trans hres
    · exact ⟨E, (getElem?_set_ne (Ne.symm heq)).trans hE, hmem, hres⟩

theorem History.of_sends (hkeep : ∀ v, s.sends v ⊆ s'.sends v)
    (hadded : ∀ v o err, (o, err) ∈ s'.sends v → (o, err) ∈ s.sends v ∨
      (o = none ∧ err ≠ none) ∨ ∃ d D, o = some d ∧ s.dispatches[d]? = some D ∧ v ∈ D.batch ∧
        D.result = some err)
    (hdone : ∀ v err, s'.doneCh v = some err → s.doneCh v = some err ∨ ∃ o, (o, err) ∈ s'.sends v)
    (hpending : s'.pending ⊆ s.pending) (hdispatches : s'.dispatches = s.dispatches)
    (hcallers : s'.callers = s.callers) (hcalled : s'.calledAt = s.calledAt)
    (hclock : s'.clock = s.clock) : History s' := by
  refine ⟨fun v hv => ?_, fun v hv => ?_, fun D hD => ?_, fun v d err hv => ?_, fun v err hv => ?_,
    fun v err hv => ?_, fun v hv => ?_⟩
  · rw [hcalled, hclock]
    exact hs.called v (hcallers ▸ hv)
  · rw [hcallers]
    exact hs.pending v (hpending hv)
  · have hok := hs.dispatches D (hdispatches ▸ hD)
    exact ⟨hok.left, hok.result, hcallers ▸ hok.called, hcalled ▸ hok.batch⟩
  · rw [hdispatches]
    rcases hadded v _ err hv with hv | ⟨hnone, -⟩ | ⟨e, D, heq, hD⟩
    · exact hs.sent v d err hv
    · cases hnone
    · cases heq
      exact ⟨D, hD⟩
  · rcases hadded v _ err hv with hv | ⟨-, herr⟩ | ⟨e, D, heq, -⟩
    · exact hs.stopped v err hv
    · exact herr
    · cases heq
  · rcases hdone v err hv with hv | hv
    · obtain ⟨o, ho⟩ := hs.doneCh v err hv
      exact ⟨o, hkeep v ho⟩
    · exact hv
  · obtain ⟨d, hd⟩ := hs.returned v (hcallers ▸ hv)
    exact ⟨d, hkeep v hd⟩

theorem History.stop : History s.stop := by
  refine hs.of_sends (fun v => ?_) (fun v o err hv => ?_) (fun v err hv => ?_) (by simp [State.stop])
    rfl rfl rfl rfl
  · simp only [State.stop]
    split_ifs
    · exact subset_append_left _ _
    · exact List.Subset.refl _
  · simp only [State.stop] at hv
    split_ifs at hv with hm
    · rcases List.mem_append.mp hv with hv | hv
      · exact .inl hv
      · cases List.mem_singleton.mp hv
        exact .inr (.inl ⟨rfl, by simp⟩)
    · exact .inl hv
  · simp only [State.stop] at hv ⊢
    split_ifs at hv ⊢ with hm
    · cases hv
      exact .inr ⟨none, by simp⟩
    · exact .inl hv

theorem History.send (hD : s.dispatches[d]? = some D)
    (hw : w ∈ D.batch) (hres : D.result = some err) : History (s.send w d err) := by
  refine hs.of_sends (fun v => ?_) (fun v o err' hv => ?_) (fun v err' hv => ?_)
    (List.Subset.refl _) rfl rfl rfl rfl
  · simp only [State.send, update_apply]
    split_ifs with heq
    · rw [heq]
      exact subset_append_left _ _
    · exact List.Subset.refl _
  · simp only [State.send, update_apply] at hv
    split_ifs at hv with heq
    · subst heq
      rcases List.mem_append.mp hv with hv | hv
      · exact .inl hv
      · cases List.mem_singleton.mp hv
        exact .inr (.inr ⟨d, D, rfl, hD, hw, hres⟩)
    · exact .inl hv
  · simp only [State.send, update_apply] at hv ⊢
    split_ifs at hv ⊢ with heq
    · cases hv
      exact .inr ⟨some d, by simp⟩
    · exact .inl hv

end

theorem History.step {r : ℕ} (h : History s) (hs : step r s a = some s') :
    History s' := by
  cases a with
  | call w =>
    obtain ⟨hw, rfl⟩ := of_guard hs
    exact h.call hw
  | wait w =>
    obtain ⟨hw, rfl⟩ := of_guard hs
    exact h.wait hw
  | fire t =>
    obtain ⟨-, rfl⟩ := of_guard hs
    exact { h with dispatches := fun D hD => { h.dispatches D hD with } }
  | flush t =>
    obtain ⟨-, rfl⟩ := of_guard hs
    exact History.flushLocked { h with dispatches := fun D hD => { h.dispatches D hD with } }
  | stop =>
    obtain ⟨-, rfl⟩ := of_guard hs
    exact h.stop
  | begin d =>
    obtain ⟨D, hD, -, rfl⟩ := step_begin hs
    have hok := h.dispatches D (mem_of_getElem? hD)
    refine (h.setDispatch hD { D with began := some s.clock }
      ⟨hok.left, by simp, hok.called, fun v hv t ht => ?_⟩ rfl (.inr rfl)).tick
    -- it begins now, after all its callers have called
    cases ht
    exact h.called v (hok.called v hv)
  | finish d err =>
    obtain ⟨D, hD, hbegan, hnone, rfl⟩ := step_finish hs
    have hok := h.dispatches D (mem_of_getElem? hD)
    exact h.setDispatch hD _ ⟨hok.left, fun _ => hbegan, hok.called, hok.batch⟩ rfl (.inl hnone)
  | fanout d =>
    obtain ⟨D, err, w, left, hD, hres, hleft, rfl⟩ := step_fanout hs
    have hok := h.dispatches D (mem_of_getElem? hD)
    have hsub : w :: left ⊆ D.batch := hleft ▸ hok.left
    have hsend := h.send hD (hsub mem_cons_self) hres
    exact hsend.setDispatch hD { D with left := left }
      ⟨fun v hv => hsub (mem_cons_of_mem w hv), hok.result, hok.called, hok.batch⟩ rfl
      (.inr rfl)
  | receive w =>
    obtain ⟨err, hw, hch, rfl⟩ := step_receive hs
    have hreceive : History (s.receive w) := by
      refine h.of_sends (fun v => List.Subset.refl _) (fun v o err hv => .inl hv)
        (fun v err hv => ?_) (List.Subset.refl _) rfl rfl rfl rfl
      simp only [State.receive, update_apply] at hv
      split_ifs at hv
      exact .inl hv
    refine hreceive.setCaller (by simp [State.receive, hw]) (by simp) fun hnil => ?_
    -- what is received was sent, and not by `Stop`
    obtain ⟨o, ho⟩ := h.doneCh w err hch
    obtain rfl := Caller.returned.inj hnil
    cases o with
    | none => exact absurd rfl (h.stopped w none ho)
    | some d => exact ⟨d, ho⟩
  | timeout w =>
    obtain ⟨hw, rfl⟩ := of_guard hs
    exact h.setCaller (by simp [hw]) (by simp) (by simp)

end

structure Inv (s : State) : Prop where
  armed : Armed s
  held : Held s
  history : History s

theorem inv_of_reachable {r : ℕ} {s : State} (hs : (system r).Reachable s) : Inv s := by
  refine hs.invariant ⟨⟨?_, ?_, ?_⟩, ⟨?_, ?_, ?_⟩, ⟨?_, ?_, ?_, ?_, ?_, ?_, ?_⟩⟩
    fun s s' a h _ ha => ⟨h.armed.step ha, h.held.step ha, h.history.step ha⟩
  all_goals simp [system, State.credit]

/-- **Batched read indexes are sound.**  In every run: a `Wait` that returns nil was sent the
nil of a `Dispatch` that began after the call; at most one result is sent to a waiter; and
while waiters are pending and the batcher is not stopped, its timer is running, or has
fired and its flush is about to run. -/
theorem readIndex_sound {regionID : ℕ} {s : State} (hs : (system regionID).Reachable s) :
    (∀ w, s.callers w = .returned none → ∃ d D t, (some d, none) ∈ s.sends w ∧
      s.dispatches[d]? = some D ∧ w ∈ D.batch ∧ D.began = some t ∧ s.calledAt w < t ∧
      D.result = some none) ∧ (∀ w, (s.sends w).length ≤ 1) ∧
    (s.pending ≠ [] → s.stopped = false → ∃ t, s.timers.timer = some t ∧
      (s.timers.state t = .armed ∨ s.timers.state t = .fired)) := by
  have hinv := inv_of_reachable hs
  refine ⟨fun w hw => ?_, fun w => ?_, fun hne _ => ?_⟩
  · obtain ⟨d, hd⟩ := hinv.history.returned w hw
    obtain ⟨D, hD, hmem, hres⟩ := hinv.history.sent w d none hd
    have hok := hinv.history.dispatches D (mem_of_getElem? hD)
    obtain ⟨t, ht⟩ := ne_none_iff_exists'.mp (hok.result (by simp [hres]))
    exact ⟨d, D, t, hd, hD, hmem, ht, hok.batch w hmem t ht, hres⟩
  · exact (Nat.le_add_left _ _).trans (hinv.held.credit w)
  · obtain ⟨t, ht⟩ := ne_none_iff_exists'.mp (hinv.armed.pending hne)
    exact ⟨t, ht, hinv.armed.timer t ht⟩

def oneRead : List Action :=
  [.call 0, .wait 0, .fire 0, .flush 0, .begin 0, .finish 0 none, .fanout 0, .receive 0]

theorem readIndex_sound_oneRead : ∃ s, (system 1).Reachable s ∧ s.callers 0 = .returned none ∧
      ∃ d D t, (some d, none) ∈ s.sends 0 ∧ s.dispatches[d]? = some D ∧ 0 ∈ D.batch ∧
        D.began = some t ∧ s.calledAt 0 < t ∧ D.result = some none := by
  obtain ⟨s, hrun, hret⟩ : ∃ s, (system 1).runFrom {} oneRead = some s ∧
      s.callers 0 = .returned none := ⟨_, rfl, rfl⟩
  have hreach := reachable_of_run .start hrun
  exact ⟨s, hreach, hret, (readIndex_sound hreach).1 0 hret⟩

end ReadIndex
