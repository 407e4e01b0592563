/-
The event loop of a PD node and its buffered allocators: `Run`, `handleReady` and
`ProposeAndWait` of `internal/pd/raft_peer.go`, the leader change function of
`internal/pd/server.go`, `GetTS` and `Reset` of `tso_buffer.go`, `Alloc` and `Reset` of
`id_buffer.go`.
-/
import Gookv.StepSystem

namespace PdDeadlock

open Function Option StepSystem

inductive Buffer
  | tso
  | id
  deriving DecidableEq

/-- Where a goroutine is in `GetTS` or `Alloc`. -/
inductive Caller
  | idle
  | locking (b : Buffer)
  | holding (b : Buffer)
  | sending (b : Buffer)
  | waiting (b : Buffer)
  | answered (b : Buffer)
  deriving DecidableEq

open Caller

inductive Loop
  | select
  | resetting (b : Buffer)
  deriving DecidableEq

inductive Message
  | raftMessage
  | proposal (callback : Option ℕ)
  deriving DecidableEq

structure State where
  isLeader : Bool
  loop : Loop
  mutex : Buffer → Option ℕ
  callers : ℕ → Caller
  mailbox : List Message
  pendingProposals : List (Option ℕ)

inductive Action
  | call (c : ℕ) (b : Buffer)
  | lock (c : ℕ)
  | serve (c : ℕ)
  | refill (c : ℕ)
  | send (c : ℕ)
  | finish (c : ℕ)
  | post (m : Message)
  | handleMessage (accepted : Bool)
  | raftLogGCTick
  | setLeader (nowLeader : Bool)
  | reset
  | applyEntry
  deriving DecidableEq

/-! ### The code -/

def answer (callers : ℕ → Caller) (callback : Option ℕ) : ℕ → Caller :=
  match callback with
  | none => callers
  | some c =>
    match callers c with
    | .waiting b => update callers c (.answered b)
    | _ => callers

def State.goto (s : State) (c : ℕ) (x : Caller) : State :=
  { s with callers := update s.callers c x }

def State.leave (s : State) (c : ℕ) (b : Buffer) : State :=
  { s.goto c .idle with mutex := update s.mutex b none }

def State.afterReset (s : State) : Buffer → State
  | .tso => { s with loop := .resetting .id }
  | .id =>
    if s.isLeader then { s with loop := .select }
    else
      { s with
        loop := .select
        callers := s.pendingProposals.foldl answer s.callers
        pendingProposals := [] }

def step (capacity : ℕ) (s : State) : Action → Option State
  | .call c b => if s.callers c = .idle then some (s.goto c (.locking b)) else none
  | .lock c =>
    match s.callers c with
    | .locking b =>
      if s.mutex b = none then
        some { s.goto c (.holding b) with mutex := update s.mutex b (some c) }
      else none
    | _ => none
  | .serve c =>
    -- the buffer has enough
    match s.callers c with
    | .holding b => some (s.leave c b)
    | _ => none
  | .refill c =>
    match s.callers c with
    | .holding b => some (if s.isLeader then s.goto c (.sending b) else s.leave c b)
    | _ => none
  | .send c =>
    match s.callers c with
    | .sending b =>
      if s.mailbox.length < capacity then
        some { s.goto c (.waiting b) with mailbox := s.mailbox ++ [.proposal (some c)] }
      else none
    | _ => none
  | .finish c =>
    match s.callers c with
    | .answered b => some (s.leave c b)
    | _ => none
  | .post m =>
    if s.mailbox.length < capacity ∧ m ∈ [Message.raftMessage, .proposal none] then
      some { s with mailbox := s.mailbox ++ [m] }
    else none
  | .handleMessage accepted =>
    match s.loop, s.mailbox with
    | .select, .raftMessage :: mailbox => some { s with mailbox }
    | .select, .proposal callback :: mailbox =>
      if accepted then
        some { s with mailbox, pendingProposals := s.pendingProposals ++ [callback] }
      else some { s with mailbox, callers := answer s.callers callback }
    | _, _ => none
  | .raftLogGCTick =>
    if s.loop = .select ∧ s.isLeader then
      some { s with pendingProposals := s.pendingProposals ++ [none] }
    else none
  | .setLeader nowLeader =>
    if s.loop = .select then
      some { s with
        isLeader := nowLeader
        loop := if s.isLeader ≠ nowLeader then .resetting .tso else .select }
    else none
  | .reset =>
    match s.loop with
    | .resetting b => if s.mutex b = none then some (s.afterReset b) else none
    | .select => none
  | .applyEntry =>
    match s.loop, s.pendingProposals with
    | .select, callback :: pendingProposals =>
      some { s with pendingProposals, callers := answer s.callers callback }
    | _, _ => none

def start : State := ⟨false, .select, fun _ => none, fun _ => .idle, [], []⟩

def system (capacity : ℕ) : StepSystem State Action := ⟨start, step capacity⟩

def StuckForever (capacity : ℕ) (s : State) : Prop :=
  (∃ b, s.loop = .resetting b) ∧
    ∀ as s', (system capacity).runFrom s as = some s' → s'.loop = s.loop

def Caller.holds : Caller → Option Buffer
  | .idle | .locking _ => none
  | .holding b | .sending b | .waiting b | .answered b => some b

def Caller.proposing : Caller → Option Buffer
  | .sending b | .waiting b => some b
  | .idle | .locking _ | .holding _ | .answered _ => none

def Held (s : State) : Prop := ∀ b c, s.mutex b = some c ↔ (s.callers c).holds = some b

def Blocked (s : State) : Prop :=
  ∃ b c, s.loop = .resetting b ∧ s.mutex b = some c ∧ (s.callers c).proposing = some b

section

variable {callers : ℕ → Caller} {callback : Option ℕ} {c c' : ℕ} {b : Buffer} {x : Caller}

theorem holds_of_proposing (h : x.proposing = some b) : x.holds = some b := by
  cases x <;> simp_all [proposing, holds]

theorem answer_cases (callers : ℕ → Caller) (callback : Option ℕ) (c : ℕ) :
    answer callers callback c = callers c ∨
      ∃ b, callers c = .waiting b ∧ answer callers callback c = .answered b := by
  rcases callback with _ | c'
  · exact .inl rfl
  · by_cases hwaits : ∃ b, callers c' = .waiting b
    · obtain ⟨b, hb⟩ := hwaits
      have hanswer : answer callers (some c') = update callers c' (.answered b) := by
        rw [answer, hb]
      rw [hanswer]
      by_cases hc : c = c'
      · subst hc
        exact .inr ⟨b, hb, update_self ..⟩
      · exact .inl (update_of_ne hc ..)
    · have hanswer : answer callers (some c') = callers := by
        rw [answer]
        split
        · exact absurd ⟨_, ‹_›⟩ hwaits
        · rfl
      exact .inl (congrFun hanswer c)

theorem holds_answer : (answer callers callback c).holds = (callers c).holds := by
  rcases answer_cases callers callback c with h | ⟨b, hb, h⟩
  · rw [h]
  · rw [h, hb]
    rfl

theorem proposing_of_answer (h : (answer callers callback c).proposing = some b) :
    (callers c).proposing = some b := by
  rcases answer_cases callers callback c with h' | ⟨b', -, h'⟩
  · rwa [h'] at h
  · rw [h'] at h
    exact absurd h (by simp [proposing])

theorem holds_drain (pending : List (Option ℕ)) :
    (pending.foldl answer callers c).holds = (callers c).holds := by
  induction pending generalizing callers with
  | nil => rfl
  | cons callback pending ih => exact ih.trans holds_answer

theorem proposing_of_drain {pending : List (Option ℕ)}
    (h : (pending.foldl answer callers c).proposing = some b) : (callers c).proposing = some b := by
  induction pending generalizing callers with
  | nil => exact h
  | cons callback pending ih => exact proposing_of_answer (ih h)

end

/-! ### Steps -/

variable {capacity : ℕ} {s s' : State} {a : Action} {b : Buffer} {c : ℕ}

theorem Held.of_holds (h : Held s) (hmutex : s'.mutex = s.mutex)
    (hcallers : ∀ c, (s'.callers c).holds = (s.callers c).holds) : Held s' := by
  intro b c
  rw [hmutex, hcallers]
  exact h b c

theorem holds_goto {x : Caller} (hx : x.holds = (s.callers c).holds) (c' : ℕ) :
    ((s.goto c x).callers c').holds = (s.callers c').holds := by
  by_cases hc : c' = c
  · subst hc
    exact (congrArg holds (update_self ..)).trans hx
  · exact congrArg holds (update_of_ne hc ..)

theorem Held.leave (h : Held s) (hb : (s.callers c).holds = some b) : Held (s.leave c b) := by
  intro b' c'
  have hholder := (h b c).mpr hb
  by_cases hc : c' = c
  · subst hc
    show update s.mutex b none b' = some c' ↔
      (update s.callers c' .idle c').holds = some b'
    rw [update_self]
    by_cases hb' : b' = b
    · subst hb'
      rw [update_self]
      simp [holds]
    · rw [update_of_ne hb', h b' c', hb]
      simp [holds, Ne.symm hb']
  · show update s.mutex b none b' = some c' ↔
      (update s.callers c .idle c').holds = some b'
    rw [update_of_ne hc, ← h b' c']
    by_cases hb' : b' = b
    · subst hb'
      rw [update_self, hholder]
      simp [Ne.symm hc]
    · rw [update_of_ne hb']

theorem Held.lock (h : Held s) (hfree : s.mutex b = none) (hc : (s.callers c).holds = none) :
    Held { s.goto c (.holding b) with mutex := update s.mutex b (some c) } := by
  intro b' c'
  show update s.mutex b (some c) b' = some c' ↔
    (update s.callers c (.holding b) c').holds = some b'
  by_cases hc' : c' = c
  · subst hc'
    rw [update_self]
    by_cases hb' : b' = b
    · subst hb'
      rw [update_self]
      simp [holds]
    · rw [update_of_ne hb', h b' c', hc]
      simp [holds, Ne.symm hb']
  · rw [update_of_ne hc', ← h b' c']
    by_cases hb' : b' = b
    · subst hb'
      rw [update_self, hfree]
      simp [Ne.symm hc']
    · rw [update_of_ne hb']

inductive StepCase (s : State) : Action → State → Prop
  | call {c : ℕ} {b : Buffer} : s.callers c = .idle →
      StepCase s (.call c b) (s.goto c (.locking b))
  | lock {c : ℕ} {b : Buffer} : s.callers c = .locking b → s.mutex b = none → StepCase s (.lock c)
      { s.goto c (.holding b) with mutex := update s.mutex b (some c) }
  | serve {c : ℕ} {b : Buffer} : s.callers c = .holding b → StepCase s (.serve c) (s.leave c b)
  | refill {c : ℕ} {b : Buffer} : s.callers c = .holding b → s.isLeader = true →
      StepCase s (.refill c) (s.goto c (.sending b))
  | notLeader {c : ℕ} {b : Buffer} : s.callers c = .holding b → s.isLeader = false →
      StepCase s (.refill c) (s.leave c b)
  | send {c : ℕ} {b : Buffer} {mailbox : List Message} : s.callers c = .sending b →
      StepCase s (.send c) { s.goto c (.waiting b) with mailbox }
  | finish {c : ℕ} {b : Buffer} : s.callers c = .answered b →
      StepCase s (.finish c) (s.leave c b)
  | post {m : Message} {mailbox : List Message} : StepCase s (.post m) { s with mailbox }
  | loop {a : Action} (callback : Option ℕ) {mailbox : List Message}
      {pendingProposals : List (Option ℕ)} : s.loop = .select → a ≠ .reset →
      (∀ now, a ≠ .setLeader now) → (∀ c, a ≠ .refill c) →
      StepCase s a { s with mailbox, pendingProposals, callers := answer s.callers callback }
  | setLeader {now : Bool} : s.loop = .select → StepCase s (.setLeader now)
      { s with
        isLeader := now
        loop := if s.isLeader ≠ now then .resetting .tso else .select }
  | reset {b : Buffer} : s.loop = .resetting b → s.mutex b = none →
      StepCase s .reset (s.afterReset b)

theorem step_cases (h : step capacity s a = some s') : StepCase s a s' := by
  cases a with
  | call c b =>
    obtain ⟨hc, rfl⟩ := of_guard h
    exact .call hc
  | lock c =>
    rw [step] at h
    split at h
    · obtain ⟨hfree, rfl⟩ := of_guard h
      exact .lock ‹_› hfree
    · cases h
  | serve c =>
    rw [step] at h
    split at h
    · cases h
      exact .serve ‹_›
    · cases h
  | refill c =>
    rw [step] at h
    split at h
    · cases h
      by_cases hleader : s.isLeader = true
      · rw [if_pos hleader]
        exact .refill ‹_› hleader
      · rw [if_neg hleader]
        exact .notLeader ‹_› (Bool.not_eq_true _ ▸ hleader)
    · cases h
  | send c =>
    rw [step] at h
    split at h
    · obtain ⟨-, rfl⟩ := of_guard h
      exact .send ‹_›
    · cases h
  | finish c =>
    rw [step] at h
    split at h
    · cases h
      exact .finish ‹_›
    · cases h
  | post m =>
    obtain ⟨-, rfl⟩ := of_guard h
    exact .post
  | handleMessage accepted =>
    rw [step] at h
    split at h
    · cases h
      exact .loop none ‹_› (by simp) (by simp) (by simp)
    · split at h
      · cases h
        exact .loop none ‹_› (by simp) (by simp) (by simp)
      · cases h
        exact .loop _ ‹_› (by simp) (by simp) (by simp)
    · cases h
  | raftLogGCTick =>
    obtain ⟨hloop, rfl⟩ := of_guard h
    exact .loop none hloop.1 (by simp) (by simp) (by simp)
  | setLeader now =>
    obtain ⟨hloop, rfl⟩ := of_guard h
    exact .setLeader hloop
  | reset =>
    rw [step] at h
    split at h
    · obtain ⟨hfree, rfl⟩ := of_guard h
      exact .reset ‹_› hfree
    · cases h
  | applyEntry =>
    rw [step] at h
    split at h
    · cases h
      exact .loop _ ‹_› (by simp) (by simp) (by simp)
    · cases h

theorem Held.step (h : Held s) (hs : StepCase s a s') : Held s' := by
  cases hs with
  | call hc => exact h.of_holds rfl (holds_goto (by rw [hc]; rfl))
  | lock hc hfree => exact h.lock hfree (by rw [hc]; rfl)
  | serve hc => exact h.leave (by rw [hc]; rfl)
  | refill hc _ => exact h.of_holds rfl (holds_goto (by rw [hc]; rfl))
  | notLeader hc _ => exact h.leave (by rw [hc]; rfl)
  | send hc => exact h.of_holds rfl (holds_goto (x := .waiting _) (by rw [hc]; rfl))
  | finish hc => exact h.leave (by rw [hc]; rfl)
  | post => exact h
  | loop callback _ _ _ _ => exact h.of_holds rfl fun c => holds_answer
  | setLeader _ => exact h
  | @reset b hloop hfree =>
    cases b with
    | tso => exact h
    | id =>
      rw [State.afterReset]
      split
      · exact h
      · exact h.of_holds rfl fun c => holds_drain _

theorem held_start : Held start := by
  intro b c
  simp [start, holds]

theorem blocked_iff (h : Held s) :
    Blocked s ↔ ∃ b c, s.loop = .resetting b ∧ (s.callers c).proposing = some b := by
  constructor
  · rintro ⟨b, c, hloop, -, hc⟩
    exact ⟨b, c, hloop, hc⟩
  · rintro ⟨b, c, hloop, hc⟩
    exact ⟨b, c, hloop, (h b c).mpr (holds_of_proposing hc), hc⟩

theorem proposing_goto {x : Caller} (hx : x.proposing = (s.callers c).proposing) (c' : ℕ) :
    ((s.goto c x).callers c').proposing = (s.callers c').proposing := by
  by_cases hc : c' = c
  · subst hc
    exact (congrArg proposing (update_self ..)).trans hx
  · exact congrArg proposing (update_of_ne hc ..)

theorem proposing_step (hs : StepCase s a s') (c : ℕ) :
    (s'.callers c).proposing = (s.callers c).proposing ∨
      ((s'.callers c).proposing = none ∧ (s.loop = .select ∨ a = .reset)) ∨
      ∃ b, a = .refill c ∧ s.callers c = .holding b ∧ s.isLeader = true ∧
        s' = s.goto c (.sending b) := by
  -- a callback takes a goroutine out of its proposal, or leaves it where it is
  have hcalled : ∀ x y : Caller, (∀ b, y.proposing = some b → x.proposing = some b) →
      y.proposing = x.proposing ∨ y.proposing = none := by
    intro x y hxy
    rcases hy : y.proposing with _ | b
    · exact .inr rfl
    · exact .inl (hxy b hy).symm
  cases hs with
  | call hc => exact .inl (proposing_goto (by rw [hc]; rfl) c)
  | lock hc _ => exact .inl (proposing_goto (x := .holding _) (by rw [hc]; rfl) c)
  | serve hc => exact .inl (proposing_goto (x := .idle) (by rw [hc]; rfl) c)
  | @refill c' b hc hleader =>
    by_cases heq : c = c'
    · subst heq
      exact .inr (.inr ⟨b, rfl, hc, hleader, rfl⟩)
    · exact .inl (congrArg proposing (update_of_ne heq ..))
  | notLeader hc _ => exact .inl (proposing_goto (x := .idle) (by rw [hc]; rfl) c)
  | send hc => exact .inl (proposing_goto (x := .waiting _) (by rw [hc]; rfl) c)
  | finish hc => exact .inl (proposing_goto (x := .idle) (by rw [hc]; rfl) c)
  | post => exact .inl rfl
  | loop callback hloop _ _ _ =>
    exact (hcalled (s.callers c) _ fun b => proposing_of_answer).imp_right
      fun h => .inl ⟨h, .inl hloop⟩
  | setLeader _ => exact .inl rfl
  | @reset b _ _ =>
    cases b with
    | tso => exact .inl rfl
    | id =>
      rw [State.afterReset]
      split
      · exact .inl rfl
      · exact (hcalled (s.callers c) _ fun b => proposing_of_drain).imp_right
          fun h => .inl ⟨h, .inr rfl⟩

theorem loop_step (hs : StepCase s a s') : s'.loop = s.loop ∨
      (∃ now, a = .setLeader now ∧ s.loop = .select ∧ s.isLeader ≠ now ∧
        s'.loop = .resetting .tso) ∨
      (a = .reset ∧ s.loop = .resetting .tso ∧ s.mutex .tso = none ∧
        s'.loop = .resetting .id) ∨
      (a = .reset ∧ s.loop = .resetting .id ∧ s.mutex .id = none ∧ s'.loop = .select) := by
  cases hs with
  | call _ | lock _ _ | serve _ | refill _ _ | notLeader _ _ | send _ | finish _ | post
  | loop _ _ _ _ _ => exact .inl rfl
  | @setLeader now hloop =>
    by_cases hnow : s.isLeader = now
    · exact .inl (by simp [hnow, hloop])
    · exact .inr (.inl ⟨now, rfl, hloop, hnow, if_pos hnow⟩)
  | @reset b hloop hfree =>
    cases b with
    | tso => exact .inr (.inr (.inl ⟨rfl, hloop, hfree, rfl⟩))
    | id =>
      refine .inr (.inr (.inr ⟨rfl, hloop, hfree, ?_⟩))
      rw [State.afterReset]
      split <;> rfl

theorem free_of_reset (hs : StepCase s .reset s') :
    ∃ b, s.loop = .resetting b ∧ s.mutex b = none := by
  cases hs with
  | loop _ _ hreset _ _ => exact absurd rfl hreset
  | reset hloop hfree => exact ⟨_, hloop, hfree⟩

theorem Blocked.step (h : Blocked s) (hheld : Held s) (hs : StepCase s a s') :
    Blocked s' ∧ s'.loop = s.loop := by
  obtain ⟨b, c, hloop, hmutex, hc⟩ := h
  have hselect : s.loop ≠ .select := by simp [hloop]
  have hreset : a ≠ .reset := by
    rintro rfl
    obtain ⟨b', hloop', hfree⟩ := free_of_reset hs
    obtain rfl : b = b' := Loop.resetting.inj (hloop.symm.trans hloop')
    exact absurd (hfree.symm.trans hmutex) (by simp)
  have hloop' : s'.loop = s.loop := by
    rcases loop_step hs with h | ⟨_, _, h, _⟩ | ⟨h, _⟩ | ⟨h, _⟩
    · exact h
    · exact absurd h hselect
    · exact absurd h hreset
    · exact absurd h hreset
  refine ⟨(blocked_iff (hheld.step hs)).mpr ⟨b, c, hloop'.trans hloop, ?_⟩, hloop'⟩
  rcases proposing_step hs c with h | ⟨-, h | h⟩ | ⟨b', -, hc', -⟩
  · rw [h, hc]
  · exact absurd h hselect
  · exact absurd h hreset
  · rw [hc'] at hc
    exact absurd hc (by simp [proposing])

theorem leaves_of_free (capacity : ℕ) (hloop : s.loop = .resetting b) (hfree : s.mutex b = none) :
    ∃ s', step capacity s .reset = some s' ∧ s'.loop ≠ s.loop := by
  refine ⟨s.afterReset b, ?_, ?_⟩
  · rw [step, hloop]
    exact if_pos hfree
  · rw [hloop]
    cases b with
    | tso => simp [State.afterReset]
    | id =>
      rw [State.afterReset]
      split <;> simp

theorem stuckForever_iff (h : Held s) : StuckForever capacity s ↔ Blocked s := by
  constructor
  · rintro ⟨⟨b, hloop⟩, hstuck⟩
    -- otherwise the holder leaves, and then the event loop gets the mutex
    have hleave : ∀ a s', step capacity s a = some s' → s'.loop = .resetting b → s'.mutex b = none →
        False := by
      intro a s₁ hs hloop₁ hfree
      obtain ⟨s₂, hs₂, hne⟩ := leaves_of_free capacity hloop₁ hfree
      have hrun : (system capacity).runFrom s [a, .reset] = some s₂ := by
        simp [runFrom, runWhen, system, hs, hs₂]
      exact hne ((hstuck _ _ hrun).trans (hloop.trans hloop₁.symm))
    rcases hmutex : s.mutex b with _ | c
    · obtain ⟨s', hs', hne⟩ := leaves_of_free capacity hloop hmutex
      have hrun : (system capacity).runFrom s [.reset] = some s' := by
        simp [runFrom, runWhen, system, hs']
      exact absurd (hstuck _ _ hrun) hne
    · refine ⟨b, c, hloop, hmutex, ?_⟩
      have hholds := (h b c).mp hmutex
      have hfree : (s.leave c b).mutex b = none := update_self ..
      cases hc : s.callers c with
      | idle | locking b' => simp [hc, holds] at hholds
      | holding b' =>
        obtain rfl : b' = b := by simpa [hc, holds] using hholds
        exact (hleave (.serve c) (s.leave c b') (by rw [step, hc]) hloop hfree).elim
      | sending b' | waiting b' => simpa [hc, holds, proposing] using hholds
      | answered b' =>
        obtain rfl : b' = b := by simpa [hc, holds] using hholds
        exact (hleave (.finish c) (s.leave c b') (by rw [step, hc]) hloop hfree).elim
  · intro hblocked
    have hresetting : ∃ b, s.loop = .resetting b := by
      obtain ⟨b, c, hloop, -⟩ := hblocked
      exact ⟨b, hloop⟩
    refine ⟨hresetting, fun as s' hrun => ?_⟩
    have hinv : Held s' ∧ Blocked s' ∧ s'.loop = s.loop := by
      refine run_invariant (P := fun t => Held t ∧ Blocked t ∧ t.loop = s.loop) ?_
        ⟨h, hblocked, rfl⟩ hrun
      rintro t t' a ⟨hheld, hb, hl⟩ - hs
      have hcase := step_cases hs
      obtain ⟨hb', hl'⟩ := hb.step hheld hcase
      exact ⟨hheld.step hcase, hb', hl'.trans hl⟩
    exact hinv.2.2

/-! ### Runs -/

def NoRefillInFlight (s : State) : Action → Prop
  | .setLeader now => s.isLeader ≠ now → ∀ c, (s.callers c).proposing ≠ some .tso
  | .reset => s.loop = .resetting .tso → ∀ c, (s.callers c).proposing ≠ some .id
  | .refill c => ∀ b, s.callers c = .holding b → s.isLeader = true → s.loop ≠ .resetting b
  | _ => True

theorem not_blocked_step (hheld : Held s) (h : ¬ Blocked s) (hs : StepCase s a s')
    (hno : NoRefillInFlight s a) : ¬ Blocked s' := by
  rw [blocked_iff hheld] at h
  rw [blocked_iff (hheld.step hs)]
  rintro ⟨b, c, hloop, hc⟩
  rcases proposing_step hs c with hsame | ⟨hnone, -⟩ | ⟨b', rfl, hholding, hleader, rfl⟩
  · rw [hsame] at hc
    rcases loop_step hs with hloop' | ⟨now, rfl, -, hne, hloop'⟩ | ⟨rfl, htso, -, hloop'⟩ |
      ⟨-, -, -, hloop'⟩
    · exact h ⟨b, c, hloop'.symm.trans hloop, hc⟩
    · -- the leadership changes
      obtain rfl := Loop.resetting.inj (hloop'.symm.trans hloop)
      exact hno hne c hc
    · -- the first buffer is reset
      obtain rfl := Loop.resetting.inj (hloop'.symm.trans hloop)
      exact hno htso c hc
    · exact absurd (hloop'.symm.trans hloop) (by simp)
  · exact absurd (hnone.symm.trans hc) (by simp)
  · -- a refill begins
    have hself : (s.goto c (.sending b')).callers c = .sending b' := update_self ..
    rw [hself] at hc
    obtain rfl := some.inj hc
    exact hno b' hholding hleader hloop

theorem blocked_step (hheld : Held s) (hs : StepCase s a s') (hno : ¬ NoRefillInFlight s a) :
    Blocked s' := by
  rw [blocked_iff (hheld.step hs)]
  cases hs with
  | @setLeader now hloop =>
    simp only [NoRefillInFlight, not_forall, not_not] at hno
    obtain ⟨hne, c, hc⟩ := hno
    exact ⟨.tso, c, if_pos hne, hc⟩
  | @reset b hloop hfree =>
    simp only [NoRefillInFlight, not_forall, not_not] at hno
    obtain ⟨htso, c, hc⟩ := hno
    obtain rfl := Loop.resetting.inj (hloop.symm.trans htso)
    exact ⟨.id, c, rfl, hc⟩
  | @refill c b hc hleader =>
    simp only [NoRefillInFlight, not_forall, not_not] at hno
    obtain ⟨b', hc', -, hloop⟩ := hno
    obtain rfl := holding.inj (hc.symm.trans hc')
    have hself : (s.goto c (.sending b)).callers c = .sending b := update_self ..
    exact ⟨b, c, hloop, by rw [hself]; rfl⟩
  | @notLeader c b hc hleader =>
    exact absurd (fun _ _ h => absurd (hleader.symm.trans h) (by simp)) hno
  | @loop a callback _ _ _ hreset hlead hrefill =>
    refine absurd ?_ hno
    cases a with
    | reset => exact absurd rfl hreset
    | setLeader now => exact absurd rfl (hlead now)
    | refill c => exact absurd rfl (hrefill c)
    | _ => trivial
  | call _ | lock _ _ | serve _ | send _ | finish _ | post => exact absurd trivial hno

/-- **The event loop is never blocked forever exactly when no refill is in flight at a
reset.** -/
theorem neverStuck_iff (capacity : ℕ) (as : List Action) :
    (system capacity).AlwaysAfter (fun s => ¬ StuckForever capacity s) start as ↔
      (system capacity).Meets NoRefillInFlight start as := by
  refine alwaysAfter_iff (I := fun s => Held s ∧ ¬ Blocked s) ?_ ?_ ?_ as
  · rintro s s' a ⟨hheld, hfree⟩ hno hs
    have hcase := step_cases hs
    have hheld' := hheld.step hcase
    have hfree' := not_blocked_step hheld hfree hcase hno
    exact ⟨⟨hheld', hfree'⟩, fun hstuck => hfree' ((stuckForever_iff hheld').mp hstuck)⟩
  · rintro s s' a ⟨hheld, -⟩ hno hs hnot
    have hcase := step_cases hs
    exact hnot ((stuckForever_iff (hheld.step hcase)).mpr (blocked_step hheld hcase hno))
  · refine ⟨held_start, ?_⟩
    rintro ⟨b, c, hloop, -⟩
    exact absurd hloop (by simp [start])

def lostDuringRefill : List Action :=
  [.setLeader true, .reset, .reset, .call 0 .tso, .lock 0, .refill 0, .send 0, .handleMessage true,
    .setLeader false]

def refillBeforeReset : List Action :=
  [.call 0 .tso, .lock 0, .setLeader true, .refill 0]

/-- **A refill in flight when the leadership changes blocks the event loop forever**: the
callback is to be called after the reset, for which the mutex is needed that the goroutine
holds until the callback is called. -/
theorem leadership_lost_during_refill :
    (∃ s, (system 256).runFrom start lostDuringRefill = some s ∧ StuckForever 256 s) ∧
      ∃ s, (system 256).runFrom start refillBeforeReset = some s ∧ StuckForever 256 s := by
  have hheld : ∀ as s, (system 256).runFrom start as = some s → Held s := fun as s hrun =>
    run_invariant (fun _ _ _ h _ hs => h.step (step_cases hs)) held_start hrun
  refine ⟨⟨_, rfl, (stuckForever_iff (hheld lostDuringRefill _ rfl)).mpr ?_⟩,
    ⟨_, rfl, (stuckForever_iff (hheld refillBeforeReset _ rfl)).mpr ?_⟩⟩
  · exact ⟨.tso, 0, rfl, rfl, rfl⟩
  · exact ⟨.tso, 0, rfl, rfl, rfl⟩

end PdDeadlock
