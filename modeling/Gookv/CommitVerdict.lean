/-
When the answer of the committer can be relied on.
-/
import Gookv.Atomicity
import Gookv.Committer

open Txntypes Mvcc Txn Storage StepSystem Function

namespace TwoPhaseCommit

variable {txns : TimeStamp → TxnSpec} {st st' st'' : Statuses}
  {phase phase' phase'' : TimeStamp → Phase}

theorem Progress.trans (h : Progress st phase st' phase')
    (h' : Progress st' phase' st'' phase'') : Progress st phase st'' phase'' where
  committed k t c hst := h'.committed k t c (h.committed k t c hst)
  rolledBack k t hst := h'.rolledBack k t (h.rolledBack k t hst)
  touched k t hst := h'.touched k t (h.touched k t hst)
  started t ht := h'.started t (h.started t ht)
  committing t c hc := h'.committing t c (h.committing t c hc)
  aborted t ht := h'.aborted t (h.aborted t ht)

theorem StatusInv.onePC {t c : TimeStamp} (h : StatusInv txns st phase)
    (hp : Progress st phase (setStatus st (txns t).keys t (.committed c))
      (update phase t (.committing c))) :
    StatusInv txns (setStatus st (txns t).keys t (.committed c))
      (update phase t (.committing c)) := by
  have hself : ∀ k ∈ (txns t).keys,
      setStatus st (txns t).keys t (.committed c) k t = .committed c :=
    fun k hk => setStatus_self hk
  constructor
  case own =>
    intro k t' hst
    rcases setStatus_cases st (txns t).keys t (.committed c) k t' with ⟨hk, rfl, -⟩ | heq
    · exact ⟨by simp, hk⟩
    · exact (h.own k t' (heq ▸ hst)).imp_left (hp.started t')
  case committed_at =>
    intro k t' c' hst
    rcases setStatus_cases st (txns t).keys t (.committed c) k t' with ⟨-, rfl, heq⟩ | heq
    · rw [heq, KeyStatus.committed.injEq] at hst
      rw [update_self, hst]
    · exact hp.committing t' c' (h.committed_at k t' c' (heq ▸ hst))
  case primary_first =>
    intro k t' c' hst
    rcases setStatus_cases st (txns t).keys t (.committed c) k t' with ⟨-, rfl, heq⟩ | heq
    · exact (hself _ (txns t').primary_mem).trans (heq.symm.trans hst)
    · exact hp.committed _ t' c' (h.primary_first k t' c' (heq ▸ hst))
  case rolledBack_by =>
    intro k t' hst
    rcases setStatus_cases st (txns t).keys t (.committed c) k t' with ⟨-, rfl, heq⟩ | heq
    · rw [heq] at hst
      cases hst
    · exact (h.rolledBack_by k t' (heq ▸ hst)).imp (hp.aborted t') (hp.rolledBack _ t')
  case touched =>
    intro t' c' hc k hk
    by_cases ht : t' = t
    · subst ht
      simp [hself k hk]
    · rw [update_of_ne ht] at hc
      exact hp.touched k t' (h.touched t' c' hc k hk)

end TwoPhaseCommit

namespace Committer

open TwoPhaseCommit (Phase Progress Advances)

variable {txns : TimeStamp → Spec}

/-- With `Try1PC`, all keys are in one region, and the mutations are few and small. -/
def Served (x : Spec) : Prop :=
  x.try1PC = true → x.regions = [x.primaryRegion] ∧ is1PCEligible x.mutations 0 = true

instance (x : Spec) : Decidable (Served x) := inferInstanceAs (Decidable (_ → _))

def Stage.isPrewriting : Stage → Bool
  | .prewriting _ => true
  | _ => false

theorem Stage.isPrewriting_iff {x : Stage} :
    x.isPrewriting = true ↔ ∃ done, x = .prewriting done := by
  cases x <;> simp [Stage.isPrewriting]

variable (txns) in
def onePCProps (t : TimeStamp) (pdTS : Option TimeStamp) : OnePCProps where
  startTS := t
  commitTS := pdTS.getD (t + 1)
  primary := (txns t).primary
  lockTTL := (txns t).lockTTL

variable (txns) in
def OnePCInTime (s : State) (t : TimeStamp) (pdTS : Option TimeStamp) : Prop :=
  (∀ m ∈ (txns t).mutations, onePCError s.store (onePCProps txns t pdTS) m = none) →
    pdTS.isSome = true ∧ (s.client t).stage.isPrewriting = true ∧
      ∀ m ∈ (txns t).mutations, (s.store m.key).lock = none ∧
        ∀ q ∈ (s.store m.key).writes.entries, q.2.startTS ≠ t

instance (s : State) (t : TimeStamp) (pdTS : Option TimeStamp) :
    Decidable (OnePCInTime txns s t pdTS) :=
  inferInstanceAs (Decidable (_ → _))

variable (txns) in
def Uncommitted (s : State) (t : TimeStamp) : Prop :=
  ∀ k ∈ (txns t).keys, ¬ HasCommitRecord s.store k t

instance (s : State) (t : TimeStamp) : Decidable (Uncommitted txns s t) :=
  inferInstanceAs (Decidable (∀ k ∈ (txns t).keys, _))

variable (txns) in
/-- `Try1PC` only where it is served; no late prewrite; `execute` gives up only while the
transaction is not committed; and no lock is reported with a TTL of zero. -/
def Careful (s : State) : Action → Prop
  | .begin t => Served (txns t)
  | .client t .prewriteFailed => Uncommitted txns s t
  | .client t .getTSFailed => Uncommitted txns s t
  | .client _ (.checkPrimaryReplied status) => status.isLocked = true → 0 < lockTtl status
  | .deliver (.kv (.prewrite t ms _)) _ => NoLateLock s.store t (ms.map (·.key))
  | .deliver (.onePC t _) pdTS => OnePCInTime txns s t pdTS
  | _ => True

instance (s : State) : (a : Action) → Decidable (Careful txns s a)
  | .begin t => inferInstanceAs (Decidable (Served (txns t)))
  | .client t .prewriteFailed => inferInstanceAs (Decidable (Uncommitted txns s t))
  | .client t .getTSFailed => inferInstanceAs (Decidable (Uncommitted txns s t))
  | .client _ (.checkPrimaryReplied _) => inferInstanceAs (Decidable (_ → _))
  | .deliver (.kv (.prewrite _ _ _)) _ => inferInstanceAs (Decidable (NoLateLock _ _ _))
  | .deliver (.onePC t _) pdTS => inferInstanceAs (Decidable (OnePCInTime txns s t pdTS))
  | .client _ (.prewriteRegion _ _) | .client _ (.prewriteAcked _ _) | .client _ (.getTS _)
  | .client _ .commitPrimary | .client _ .commitPrimaryAcked | .client _ .commitPrimaryFailed
  | .client _ .checkPrimary | .client _ .checkPrimaryFailed | .client _ (.commitSecondaries _)
  | .client _ (.rollback _) | .client _ .finish | .checkTxnStatus _ _ _ | .resolveLock _ _ _
  | .deliver (.kv (.commit _ _ _)) _ | .deliver (.kv (.batchRollback _ _)) _
  | .deliver (.kv (.checkTxnStatus _ _ _)) _ | .deliver (.kv (.checkPrimaryStatus _)) _
  | .deliver (.kv (.resolveLock _ _ _)) _ => isTrue trivial

/-! ### The invariant -/

variable (txns) in
/-- The request as the plain protocol sees it. -/
def plainRequest : Request → Option TwoPhaseCommit.Request
  | .kv (.commit t keys c) => if (txns t).try1PC then none else some (.commit t keys c)
  | .kv req => some req
  | .onePC _ _ => none

variable (txns) in
def plainReply : Request × Reply → Option (TwoPhaseCommit.Request × TwoPhaseCommit.Reply)
  | (req, .kv reply) => (plainRequest txns req).map fun r => (r, reply)
  | (_, .onePC _ _) => none

variable (txns) in
def State.plain (s : State) (phase : TimeStamp → Phase) : TwoPhaseCommit.State where
  store := s.store
  now := s.now
  phase := phase
  sent := s.sent.filterMap (plainRequest txns)
  replies := s.replies.filterMap (plainReply txns)

def ClientOk (x : Spec) (c : Client) (p : Phase) (σ : Key → KeyStatus) : Prop :=
  match c.stage with
  | .idle => p = .idle
  | .prewriting done =>
    (p = .prewriting ∧ (x.try1PC = true → done = []) ∧
        ∀ r ∈ done, ∀ m ∈ x.group r, σ m.key ≠ .absent) ∨
      x.try1PC = true ∧ ∃ ts, p = .committing ts ∧ ∀ k ∈ x.keys, σ k = .committed ts
  | .committingPrimary => x.try1PC = false ∧ p = .committing c.commitTS
  | .checkingPrimary => x.try1PC = false ∧ p = .committing c.commitTS
  | .committingSecondaries => ∃ ts, p = .committing ts ∧ σ x.primary = .committed ts ∧
      (x.try1PC = false → ts = c.commitTS) ∧ (x.try1PC = true → ∀ k ∈ x.keys, σ k = .committed ts)
  | .rollingBack => p ≠ .idle ∧ (p = .aborted ∨ σ x.primary = .rolledBack)
  | .returned .ok => p ≠ .idle ∧ ∃ ts, σ x.primary = .committed ts
  | .returned (.error false) => p ≠ .idle ∧ (p = .aborted ∨ σ x.primary = .rolledBack)
  | .returned (.error true) => p ≠ .idle

variable (txns) in
def RequestOk (st : Statuses) (phase : TimeStamp → Phase) : Request → Prop
  | .kv (.commit t keys _) =>
    keys = [(txns t).primary] ∧ (txns t).try1PC = false ∨
      (∃ ts, st (txns t).primary t = .committed ts) ∧ keys ≠ [] ∧
        ((txns t).try1PC = true → ∀ k ∈ keys, ∃ ts, st k t = .committed ts)
  | .onePC t _ => (txns t).try1PC = true ∧ phase t ≠ .idle
  | _ => True

variable (txns) in
def ReplyOk (st : Statuses) : Request × Reply → Prop
  | (.onePC t _, reply) => ∃ errs ts, reply = .onePC errs ts ∧
      (errs.any Option.isSome = false → ∃ c, ∀ k ∈ (txns t).keys, st k t = .committed c)
  | _ => True

variable (txns) in
structure Inv (s : State) (st : Statuses) (phase : TimeStamp → Phase) : Prop where
  plain : TwoPhaseCommit.Inv (plainTxns txns) (s.plain txns phase) st
  clients : ∀ t, ClientOk (txns t) (s.client t) (phase t) fun k => st k t
  served : ∀ t, phase t ≠ .idle → Served (txns t)
  sent : ∀ req ∈ s.sent, RequestOk txns st phase req
  replies : ∀ x ∈ s.replies, ReplyOk txns st x

structure Forward (σ σ' : Key → KeyStatus) : Prop where
  committed : ∀ k c, σ k = .committed c → σ' k = .committed c
  rolledBack : ∀ k, σ k = .rolledBack → σ' k = .rolledBack
  touched : ∀ k, σ k ≠ .absent → σ' k ≠ .absent

theorem Forward.of_progress {phase phase' : TimeStamp → Phase} {st st' : Statuses}
    (h : Progress st phase st' phase') (t : TimeStamp) :
    Forward (fun k => st k t) (fun k => st' k t) :=
  ⟨fun k c => h.committed k t c, fun k => h.rolledBack k t, fun k => h.touched k t⟩

variable {c : Client} {keys : List Key} {p : Phase} {req : Request} {ts : TimeStamp} {r : ℕ}
  {phase phase' : TimeStamp → Phase} {st st' : Statuses}

variable {a : ClientAction} {k : Key} {σ : Key → KeyStatus} {x : Spec} {maxCommitTS : TimeStamp}
  {v : Verdict}

theorem ClientOk.forward {σ' : Key → KeyStatus}
    (h : ClientOk x c p σ) (hf : Forward σ σ') : ClientOk x c p σ' := by
  unfold ClientOk at h ⊢
  split at h
  · exact h
  · rcases h with ⟨hp, hnil, htouched⟩ | ⟨honePC, ts, hp, hall⟩
    · exact .inl ⟨hp, hnil, fun r hr m hm => hf.touched _ (htouched r hr m hm)⟩
    · exact .inr ⟨honePC, ts, hp, fun k hk => hf.committed k ts (hall k hk)⟩
  · exact h
  · exact h
  · obtain ⟨ts, hp, hprimary, heq, hall⟩ := h
    exact ⟨ts, hp, hf.committed _ ts hprimary, heq, fun honePC k hk =>
      hf.committed k ts (hall honePC k hk)⟩
  · exact ⟨h.1, h.2.imp_right (hf.rolledBack _)⟩
  · exact ⟨h.1, h.2.imp fun ts => hf.committed _ ts⟩
  · exact ⟨h.1, h.2.imp_right (hf.rolledBack _)⟩
  · exact h

theorem ClientOk.started (h : ClientOk x c p σ) (hc : c.stage ≠ .idle) : p ≠ .idle := by
  unfold ClientOk at h
  split at h
  · exact absurd ‹_› hc
  · rcases h with ⟨hp, -⟩ | ⟨-, ts, hp, -⟩
    · simp [hp]
    · simp [hp]
  · simp [h.2]
  · simp [h.2]
  · obtain ⟨ts, hp, -⟩ := h
    simp [hp]
  · exact h.1
  · exact h.1
  · exact h.1
  · exact h

theorem RequestOk.progress (hp : Progress st phase st' phase') (h : RequestOk txns st phase req) :
    RequestOk txns st' phase' req := by
  cases req with
  | onePC t maxCommitTS => exact ⟨h.1, hp.started t h.2⟩
  | kv req =>
    cases req <;> try trivial
    case commit t keys c =>
      refine h.imp_right fun ⟨hprimary, hne, hall⟩ => ⟨?_, hne, fun honePC k hk => ?_⟩
      · exact hprimary.imp fun ts => hp.committed _ t ts
      · exact (hall honePC k hk).imp fun ts => hp.committed k t ts

theorem ReplyOk.progress {x : Request × Reply}
    (hp : Progress st phase st' phase') (h : ReplyOk txns st x) :
    ReplyOk txns st' x := by
  obtain ⟨req, reply⟩ := x
  cases req with
  | kv req => trivial
  | onePC t maxCommitTS =>
    obtain ⟨errs, ts, hreply, hok⟩ := h
    exact ⟨errs, ts, hreply, fun herr => (hok herr).imp fun c hc k hk => hp.committed k t c (hc k hk)⟩

theorem hasCommitRecord_iff {s : Store} {t : TimeStamp} (h : Rep s st) :
    HasCommitRecord s k t ↔ ∃ c, st k t = .committed c := by
  constructor
  · rintro ⟨q, hq, rfl, hw⟩
    have hst := (h k).of_record q hq
    rw [recordStatus, if_neg hw] at hst
    exact ⟨q.1, hst⟩
  · rintro ⟨c, hc⟩
    obtain ⟨w, hw, rfl⟩ := (h k).record_of t c (.inl hc)
    refine ⟨(c, w), hw, rfl, fun hroll => ?_⟩
    have hst := (h k).of_record (c, w) hw
    rw [recordStatus, if_pos hroll, hc] at hst
    cases hst

theorem Inv.truthful {s : State} (h : Inv txns s st phase) : Truthful txns s := by
  have hrep : Rep s.store st := h.plain.rep
  refine ⟨fun t hstage => ?_, fun t keys c hsent hkey => ?_, fun t hstage k hk hrecord => ?_⟩
  · have hok := h.clients t
    rw [ClientOk, hstage] at hok
    exact (hasCommitRecord_iff hrep).mpr hok.2
  · obtain ⟨k, hk, hne⟩ := hkey
    rcases h.sent _ hsent with ⟨rfl, -⟩ | ⟨hprimary, -⟩
    · exact absurd (List.mem_singleton.mp hk) hne
    · exact (hasCommitRecord_iff hrep).mpr hprimary
  · have hok := h.clients t
    rw [ClientOk, hstage] at hok
    obtain ⟨c, hc⟩ := (hasCommitRecord_iff hrep).mp hrecord
    rcases hok.2 with haborted | hrolled
    · have hphase : phase t = .committing c := h.plain.status.committed_at k t c hc
      rw [haborted] at hphase
      cases hphase
    · have hprimary : st (txns t).primary t = .committed c := h.plain.status.primary_first k t c hc
      rw [hprimary] at hrolled
      cases hrolled

namespace Inv

variable {s : State} {st : Statuses} {phase : TimeStamp → Phase}

section
variable (h : Inv txns s st phase) {reply : Reply}
include h

theorem send (hplain : ∀ r, plainRequest txns req = some r →
      TwoPhaseCommit.SentOk (plainTxns txns) st phase r)
    (hok : RequestOk txns st phase req) : Inv txns (s.send req) st phase := by
  refine ⟨⟨h.plain.rep, h.plain.clock, h.plain.status, fun r hr => ?_, h.plain.replies⟩,
    h.clients, h.served, fun req' hreq' => ?_, h.replies⟩
  · obtain ⟨req', hreq', heq⟩ := List.mem_filterMap.mp hr
    rcases List.mem_cons.mp hreq' with rfl | hreq'
    · exact hplain r heq
    · exact h.plain.sent r (List.mem_filterMap.mpr ⟨req', hreq', heq⟩)
  · rcases List.mem_cons.mp hreq' with rfl | hreq'
    · exact hok
    · exact h.sent req' hreq'

theorem setClient {t : TimeStamp}
    (hc : ClientOk (txns t) c (phase t) fun k => st k t) : Inv txns (s.setClient t c) st phase := by
  refine ⟨h.plain, fun t' => ?_, h.served, h.sent, h.replies⟩
  by_cases ht : t' = t
  · subst ht
    change ClientOk _ (update s.client t' c t') _ _
    rwa [update_self]
  · change ClientOk _ (update s.client t c t') _ _
    rw [update_of_ne ht]
    exact h.clients t'

theorem setPhase {t : TimeStamp} (hp : p ≠ .idle) (ht : phase t = .idle ∨ phase t = .prewriting)
    (hclock : TwoPhaseCommit.ClockInv ts (update phase t p))
    (htouched : ∀ c, p = .committing c → ∀ k ∈ (txns t).keys, st k t ≠ .absent)
    (hserved : Served (txns t)) (hc : ClientOk (txns t) c p fun k => st k t) :
    Inv txns { s.setClient t c with now := ts } st (update phase t p) := by
  have hprog : Progress st phase st (update phase t p) := Progress.of_phase ht hp
  refine ⟨h.plain.phase hp ht hclock htouched, fun t' => ?_, fun t' ht' => ?_,
    fun req hreq => (h.sent req hreq).progress hprog, h.replies⟩
  · by_cases heq : t' = t
    · subst heq
      change ClientOk _ (update s.client t' c t') _ _
      rwa [update_self, update_self]
    · change ClientOk _ (update s.client t c t') _ _
      rw [update_of_ne heq, update_of_ne heq]
      exact h.clients t'
  · by_cases heq : t' = t
    · exact heq ▸ hserved
    · rw [update_of_ne heq] at ht'
      exact h.served t' ht'

theorem tick (hle : s.now ≤ ts) : Inv txns { s with now := ts } st phase := by
  have hclock := h.plain.clock
  refine ⟨⟨h.plain.rep, ⟨fun t ht => (hclock.le_now t ht).trans hle, fun t c hc => ?_,
    hclock.commitTS_ne, hclock.commitTS_inj⟩, h.plain.status, h.plain.sent, h.plain.replies⟩,
    h.clients, h.served, h.sent, h.replies⟩
  obtain ⟨hlt, hnow⟩ := hclock.commitTS_le_now t c hc
  exact ⟨hlt, hnow.trans hle⟩

theorem giveUp {t : TimeStamp}
    (hstage : (s.client t).stage.isPrewriting = true) (hun : Uncommitted txns s t) :
    ∃ phase', Inv txns (s.setStage t .rollingBack) st phase' := by
  obtain ⟨done, hstage⟩ := Stage.isPrewriting_iff.mp hstage
  have hok := h.clients t
  rw [ClientOk, hstage] at hok
  rcases hok with ⟨hp, -⟩ | ⟨-, ts, -, hall⟩
  · refine ⟨update phase t .aborted, ?_⟩
    have hstarted : phase t ≠ .idle := by simp [hp]
    exact h.setPhase (by simp) (.inr hp)
      (h.plain.clock.tick le_rfl (.inr (.inr ⟨rfl, hstarted⟩))) (by simp)
      (h.served t hstarted) ⟨by simp, .inl rfl⟩
  · -- A one-phase commit has taken effect.
    have hrecord := (hasCommitRecord_iff (h.plain.rep : Rep s.store st)).mpr
      ⟨ts, hall _ (txns t).primary_mem⟩
    exact absurd hrecord (hun _ (txns t).primary_mem)

/-! ### Deliveries -/

variable {store' : Store}

theorem answered {now' : TimeStamp} (hp : Progress st phase st' phase')
    (hplain : TwoPhaseCommit.Inv (plainTxns txns) (State.plain txns
      { s with store := store', now := now', replies := (req, reply) :: s.replies } phase') st')
    (hclients : ∀ t, ClientOk (txns t) (s.client t) (phase' t) fun k => st' k t)
    (hstarted : ∀ t, phase' t ≠ .idle → phase t ≠ .idle) (hreply : ReplyOk txns st' (req, reply)) :
    Inv txns { s with store := store', now := now', replies := (req, reply) :: s.replies }
      st' phase' := by
  refine ⟨hplain, hclients, fun t ht => h.served t (hstarted t ht),
    fun r hr => (h.sent r hr).progress hp, fun x hx => ?_⟩
  rcases List.mem_cons.mp hx with rfl | hx
  · exact hreply
  · exact (h.replies x hx).progress hp

theorem refused
    (hplain : plainReply txns (req, reply) = none) (hreply : ReplyOk txns st (req, reply)) :
    Inv txns { s with replies := (req, reply) :: s.replies } st phase := by
  refine h.answered (.refl st phase) ⟨h.plain.rep, h.plain.clock, h.plain.status, h.plain.sent, ?_⟩
    h.clients (fun _ => id) hreply
  rw [State.plain, List.filterMap_cons_none hplain]
  exact h.plain.replies

theorem deliver_plain {r : TwoPhaseCommit.Request}
    (hplain : plainRequest txns (.kv r) = some r) (hsent : .kv r ∈ s.sent)
    (hlate : TwoPhaseCommit.NoLatePrewrite (s.plain txns phase) (.deliver r)) : ∃ st', Inv txns
      { s with
        store := (TwoPhaseCommit.execute (plainTxns txns) s.store r).2
        replies := (.kv r, .kv (TwoPhaseCommit.execute (plainTxns txns) s.store r).1) :: s.replies }
      st' phase := by
  have hmem : r ∈ (s.plain txns phase).sent := List.mem_filterMap.mpr ⟨_, hsent, hplain⟩
  obtain ⟨st', hp, hinv⟩ := h.plain.deliver hmem hlate
  refine ⟨st', h.answered hp ?_ (fun t => (h.clients t).forward (.of_progress hp t))
    (fun _ => id) trivial⟩
  have hreply : plainReply txns (.kv r, .kv (TwoPhaseCommit.execute (plainTxns txns) s.store r).1) =
      some (r, (TwoPhaseCommit.execute (plainTxns txns) s.store r).1) := by
    rw [plainReply, hplain, Option.map_some]
  rw [State.plain, List.filterMap_cons_some hreply]
  exact hinv

theorem deliver_commit_onePC {t c : TimeStamp}
    (honePC : (txns t).try1PC = true) (hsent : .kv (.commit t keys c) ∈ s.sent) : Inv txns
      { s with
        store := (TwoPhaseCommit.execute (plainTxns txns) s.store (.commit t keys c)).2
        replies := (.kv (.commit t keys c),
          .kv (TwoPhaseCommit.execute (plainTxns txns) s.store (.commit t keys c)).1) :: s.replies }
      st phase := by
  obtain ⟨-, hno⟩ | ⟨-, hne, hall⟩ := h.sent _ hsent
  · rw [honePC] at hno
    cases hno
  · obtain ⟨k, hk⟩ := List.exists_mem_of_ne_nil keys hne
    obtain ⟨ts, hts⟩ := hall honePC k hk
    obtain ⟨e, store', hrun⟩ : ∃ e store', Storage.commit s.store keys t c = (e, store') :=
      ⟨_, _, rfl⟩
    obtain ⟨-, rfl⟩ := commit_refused h.plain.rep hk (by simp [hts]) hrun
    simp only [TwoPhaseCommit.execute, hrun]
    exact h.refused (by simp [plainReply, plainRequest, honePC]) trivial

theorem committed_onePC {t c : TimeStamp}
    {errs : List (Option TxnError)} (honePC : (txns t).try1PC = true)
    (hstage : (s.client t).stage.isPrewriting = true) (hnow : s.now < c)
    (hclean : ∀ m ∈ (txns t).mutations, (s.store m.key).lock = none ∧
      ∀ q ∈ (s.store m.key).writes.entries, q.2.startTS ≠ t)
    (hrun : prewrite1PC s.store (txns t).mutations (txns t).primary t c (txns t).lockTTL =
      (errs, ts, store')) (herr : errs.any Option.isSome = false) : Inv txns
      { s with
        store := store'
        now := c
        replies := (.onePC t maxCommitTS, .onePC errs ts) :: s.replies }
      (setStatus st (txns t).keys t (.committed c))
      (update phase t (.committing c)) := by
  have hrep : Rep s.store st := h.plain.rep
  have hclock : TwoPhaseCommit.ClockInv s.now phase := h.plain.clock
  have hstatus : TwoPhaseCommit.StatusInv (plainTxns txns) st phase := h.plain.status
  have habs : ∀ k ∈ (txns t).keys, st k t = .absent := by
    intro k hk
    obtain ⟨m, hm, rfl⟩ := List.mem_map.mp hk
    exact absent_of_unlocked hrep (hclean m hm).1 (hclean m hm).2
  obtain ⟨done, hstage⟩ := Stage.isPrewriting_iff.mp hstage
  have hphase : phase t = .prewriting := by
    have hok := h.clients t
    rw [ClientOk, hstage] at hok
    rcases hok with ⟨hp, -⟩ | ⟨-, c', -, hall⟩
    · exact hp
    · have hprimary := hall _ (txns t).primary_mem
      rw [habs _ (txns t).primary_mem] at hprimary
      cases hprimary
  have hstarted : phase t ≠ .idle := by simp [hphase]
  -- The timestamp is new, so it belongs to nobody else.
  have hspec := prewrite1PC_spec (onePCProps txns t (some c)) hrep (txns t).nodup
    (fun _ m hm => (hclean m hm).2)
    (fun k (hk : st k t = .locked) => by
      have hown : k ∈ (txns t).keys := (hstatus.own k t (by rw [hk]; simp)).2
      rw [habs k hown] at hk
      cases hk)
    ((hclock.le_now t hstarted).trans_lt hnow)
    (fun k t' hst => absurd (hclock.commitTS_le_now t' c (hstatus.committed_at k t' c hst)).2
      (not_le.mpr hnow))
    (fun k (hst : st k c = .rolledBack) => absurd
      (hclock.le_now c (hstatus.own k c (by rw [hst]; simp)).1) (not_le.mpr hnow)) hrun
  rcases hspec with ⟨herr', -⟩ | ⟨-, -, -, hm⟩
  · rw [herr] at herr'
    cases herr'
  have hp : Progress st phase (setStatus st (txns t).keys t (.committed c))
      (update phase t (.committing c)) :=
    (Progress.of_moved hrep hm phase).trans (.of_phase (.inr hphase) (by simp))
  have hclients : ∀ t', ClientOk (txns t') (s.client t') (update phase t (.committing c) t')
      fun k => setStatus st (txns t).keys t (.committed c) k t' := by
    intro t'
    by_cases ht : t' = t
    · subst ht
      rw [ClientOk, hstage]
      exact .inr ⟨honePC, c, update_self .., fun k hk => setStatus_self hk⟩
    · rw [update_of_ne ht]
      exact (h.clients t').forward (.of_progress hp t')
  refine h.answered hp ⟨hrep.moved hm, hclock.tick hnow.le (.inr (.inl ⟨rfl, hstarted, hnow⟩)),
    hstatus.onePC hp, fun r hr => (h.plain.sent r hr).progress hp,
    fun x hx => (h.plain.replies x hx).progress hp⟩ hclients (fun t' ht' => ?_)
    ⟨errs, ts, rfl, fun _ => ⟨c, fun k hk => setStatus_self hk⟩⟩
  by_cases ht : t' = t
  · exact ht ▸ hstarted
  · rwa [update_of_ne ht] at ht'

end

variable {pdTS : Option TimeStamp}

theorem le_getD {now : TimeStamp} (hpd : pdTS.all (now < ·) = true) : now ≤ pdTS.getD now := by
  cases pdTS with
  | none => exact le_rfl
  | some ts => exact (of_decide_eq_true hpd : now < ts).le

section
variable (h : Inv txns s st phase)
include h

theorem deliver_onePC {t : TimeStamp} (hsent : .onePC t maxCommitTS ∈ s.sent)
    (hpd : pdTS.all (s.now < ·) = true) (htime : OnePCInTime txns s t pdTS) : ∃ st' phase', Inv txns
      { s with
        store := (serve txns s.store pdTS (.onePC t maxCommitTS)).2
        now := pdTS.getD s.now
        replies := (.onePC t maxCommitTS, (serve txns s.store pdTS (.onePC t maxCommitTS)).1) ::
          s.replies } st' phase' := by
  obtain ⟨honePC, hstarted⟩ := h.sent _ hsent
  have helig := (h.served t hstarted honePC).2
  obtain ⟨errs, ts, store', hrun⟩ : ∃ errs ts store', prewrite1PC s.store (txns t).mutations
      (txns t).primary t (pdTS.getD (t + 1)) (txns t).lockTTL = (errs, ts, store') :=
    ⟨_, _, _, rfl⟩
  have hserve : serve txns s.store pdTS (.onePC t maxCommitTS) = (.onePC errs ts, store') := by
    simp only [serve, helig, if_true, hrun]
  rw [hserve]
  rcases prewrite1PC_cases (onePCProps txns t pdTS) hrun with ⟨herr, rfl⟩ | ⟨herr, hpass, -⟩
  · refine ⟨st, phase, (h.tick (le_getD hpd)).refused rfl ⟨errs, ts, rfl, fun hno => ?_⟩⟩
    rw [herr] at hno
    cases hno
  · obtain ⟨hsome, hstage, hclean⟩ := htime hpass
    obtain ⟨c, rfl⟩ := Option.isSome_iff_exists.mp hsome
    exact ⟨_, _, h.committed_onePC honePC hstage (of_decide_eq_true hpd) hclean hrun herr⟩

theorem deliver (hsent : req ∈ s.sent) (hpd : pdTS.all (s.now < ·) = true)
    (hcareful : Careful txns s (.deliver req pdTS)) : ∃ st' phase', Inv txns
      { s with
        store := (serve txns s.store pdTS req).2
        now := pdTS.getD s.now
        replies := (req, (serve txns s.store pdTS req).1) :: s.replies } st' phase' := by
  have htick := h.tick (le_getD hpd)
  cases req with
  | onePC t maxCommitTS => exact h.deliver_onePC hsent hpd hcareful
  | kv r =>
    by_cases hplain : plainRequest txns (.kv r) = some r
    · have hlate : TwoPhaseCommit.NoLatePrewrite (s.plain txns phase) (.deliver r) := by
        cases r with
        | prewrite t ms maxCommitTS => exact hcareful
        | _ => trivial
      obtain ⟨st', hinv⟩ := htick.deliver_plain hplain hsent hlate
      exact ⟨st', phase, hinv⟩
    · cases r with
      | commit t keys c =>
        have honePC : (txns t).try1PC = true := by
          by_contra hno
          exact hplain (by rw [plainRequest, if_neg hno])
        exact ⟨st, phase, htick.deliver_commit_onePC honePC hsent⟩
      | _ => exact absurd rfl hplain

/-! ### The steps of a client -/

theorem clientOk {t : TimeStamp} {stage : Stage} (hstage : (s.client t).stage = stage) :
    ClientOk (txns t) ⟨stage, (s.client t).commitTS⟩ (phase t) fun k => st k t :=
  hstage ▸ h.clients t

theorem plain_reply {r : TwoPhaseCommit.Request}
    {reply : TwoPhaseCommit.Reply} (hplain : plainRequest txns (.kv r) = some r)
    (hmem : (.kv r, .kv reply) ∈ s.replies) :
    TwoPhaseCommit.ReplyOk (plainTxns txns) st (r, reply) :=
  h.plain.replies _ (List.mem_filterMap.mpr ⟨_, hmem, by rw [plainReply, hplain, Option.map_some]⟩)

end

end Inv

theorem Spec.region_mem (x : Spec) (hk : k ∈ x.keys) : x.region k ∈ x.regions := by
  obtain ⟨m, hm, rfl⟩ := List.mem_map.mp hk
  exact List.mem_dedup.mpr (List.mem_map_of_mem (f := fun m => x.region m.key) hm)

theorem Served.tryOnePC (h : Served x) (honePC : x.try1PC = true)
    (hr : r ∈ x.regions) : x.tryOnePC r = true := by
  rw [(h honePC).1, List.mem_singleton] at hr
  have hall : x.group r = x.mutations := by
    refine List.filter_eq_self.mpr fun m hm => decide_eq_true ?_
    have hmem := x.region_mem (List.mem_map_of_mem hm)
    rw [(h honePC).1, List.mem_singleton] at hmem
    exact hmem.trans hr.symm
  rw [Spec.tryOnePC, hall]
  simp [honePC]

theorem State.prewriteAcked_cases {s : State} {t : TimeStamp}
    (h : s.prewriteAcked txns t r ts = true) : (∃ maxCommitTS errs,
      (.kv (.prewrite t ((txns t).group r) maxCommitTS), .kv (.errors errs)) ∈ s.replies ∧
        (txns t).tryOnePC r = false ∧ errs.any Option.isSome = false) ∨
    ∃ maxCommitTS reply, (.onePC t maxCommitTS, reply) ∈ s.replies ∧
      ∀ errs ts, reply = .onePC errs ts → errs.any Option.isSome = false := by
  obtain ⟨⟨req, reply⟩, hmem, hx⟩ := List.any_eq_true.mp h
  cases req with
  | kv req =>
    cases req with
    | prewrite t' ms maxCommitTS =>
      cases reply with
      | onePC errs c => cases hx
      | kv reply =>
        cases reply with
        | errors errs =>
          obtain ⟨rfl, hno, rfl, herr, -⟩ := of_decide_eq_true hx
          exact .inl ⟨maxCommitTS, errs, hmem, hno, by simpa using herr⟩
        | _ => cases hx
    | _ => cases hx
  | onePC t' maxCommitTS =>
    cases reply with
    | onePC errs c =>
      obtain ⟨rfl, -, herr, -⟩ := of_decide_eq_true hx
      refine .inr ⟨maxCommitTS, _, hmem, fun errs' ts' heq => ?_⟩
      obtain ⟨rfl, rfl⟩ := Reply.onePC.inj heq
      simpa using herr
    | kv reply =>
      cases reply with
      | errors errs =>
        obtain ⟨rfl, -⟩ := of_decide_eq_true hx
        exact .inr ⟨maxCommitTS, _, hmem, fun _ _ heq => by cases heq⟩
      | _ => cases hx

namespace Inv

variable {s s' : State} {st : Statuses} {phase : TimeStamp → Phase} {t : TimeStamp}

variable {done : List ℕ}

theorem prewriteRegion (h : Inv txns s st phase) (hstage : (s.client t).stage = .prewriting done) :
    Inv txns (s.send (prewriteRequest txns t r maxCommitTS)) st phase := by
  have hstarted : phase t ≠ .idle := (h.clients t).started (by simp [hstage])
  by_cases htry : (txns t).tryOnePC r = true
  · rw [prewriteRequest, if_pos htry]
    exact h.send (fun _ hr => by cases hr) ⟨(of_decide_eq_true htry).1, hstarted⟩
  · rw [prewriteRequest, if_neg htry]
    refine h.send (fun r hr => ?_) trivial
    cases hr
    refine ⟨hstarted, fun m hm => (List.mem_filter.mp hm).1, ?_⟩
    exact (List.filter_sublist.map _).nodup (txns t).nodup

theorem prewriteAcked (h : Inv txns s st phase) {commitTS : TimeStamp}
    (hstage : (s.client t).stage = .prewriting done) (hr : r ∈ (txns t).regions)
    (hacked : s.prewriteAcked txns t r ts = true) :
    Inv txns (s.setClient t ⟨.prewriting (r :: done), commitTS⟩) st phase := by
  refine h.setClient ?_
  have hserved := h.served t ((h.clients t).started (by simp [hstage]))
  rcases h.clientOk hstage with ⟨hp, hnil, htouched⟩ | hcommitted
  · rcases State.prewriteAcked_cases hacked with
      ⟨maxCommitTS, errs, hmem, hno, herr⟩ | ⟨maxCommitTS, reply, hmem, hreply⟩
    · refine .inl ⟨hp, fun honePC => ?_, fun r' hr' m hm => ?_⟩
      · rw [hserved.tryOnePC honePC hr] at hno
        cases hno
      · rcases List.mem_cons.mp hr' with rfl | hr'
        · exact h.plain_reply rfl hmem herr m hm
        · exact htouched r' hr' m hm
    · -- The one-phase commit has moved the phase already.
      obtain ⟨errs, ts', rfl, hok⟩ := h.replies _ hmem
      obtain ⟨c, hc⟩ := hok (hreply errs ts' rfl)
      have hphase : phase t = .committing c :=
        h.plain.status.committed_at _ t c (hc _ (txns t).primary_mem)
      rw [hp] at hphase
      cases hphase
  · exact .inr hcommitted

theorem prewritten_iff : s.prewritten txns t = true ↔
    ∃ done, (s.client t).stage = .prewriting done ∧ ∀ r ∈ (txns t).regions, r ∈ done := by
  unfold State.prewritten
  cases (s.client t).stage <;> simp

section
variable (h : Inv txns s st phase)
include h

theorem getTS (hpre : s.prewritten txns t = true) (hnow : s.now < ts) :
    ∃ phase', Inv txns { s.setClient t (afterGetTS (txns t) ts) with now := ts } st phase' := by
  obtain ⟨done, hstage, hdone⟩ := prewritten_iff.mp hpre
  have hstarted : phase t ≠ .idle := (h.clients t).started (by simp [hstage])
  rcases h.clientOk hstage with ⟨hp, hnil, htouched⟩ | ⟨honePC, c, hp, hall⟩
  · have hno : (txns t).try1PC = false := by
      rw [← Bool.not_eq_true]
      intro honePC
      have hmem := hdone _ ((txns t).region_mem (txns t).primary_mem)
      rw [hnil honePC] at hmem
      cases hmem
    have hlocked : ∀ k ∈ (txns t).keys, st k t ≠ .absent := by
      intro k hk
      obtain ⟨m, hm, rfl⟩ := List.mem_map.mp hk
      exact htouched _ (hdone _ ((txns t).region_mem hk)) m
        (List.mem_filter.mpr ⟨hm, decide_eq_true rfl⟩)
    refine ⟨update phase t (.committing ts), ?_⟩
    rw [afterGetTS, if_neg (by simp [hno])]
    exact h.setPhase (by simp) (.inr hp)
      (h.plain.clock.tick hnow.le (.inr (.inl ⟨rfl, hstarted, hnow⟩))) (fun _ _ => hlocked)
      (h.served t hstarted) ⟨hno, rfl⟩
  · -- The timestamp is not used: the transaction is committed at `c`.
    have hne : ts ≠ 0 := (lt_of_le_of_lt (UInt64.zero_le) hnow).ne'
    rw [afterGetTS, if_pos ⟨hne, honePC⟩]
    refine ⟨phase, (h.setClient ?_).tick hnow.le⟩
    exact ⟨c, hp, hall _ (txns t).primary_mem, by simp [honePC], fun _ => hall⟩

theorem commitPrimary (hstage : (s.client t).stage = .committingPrimary) :
    Inv txns (s.send (.kv (.commit t [(txns t).primary] (s.client t).commitTS))) st phase := by
  obtain ⟨hno, hp⟩ := h.clientOk hstage
  refine h.send (fun r hr => ?_) (.inl ⟨rfl, hno⟩)
  rw [plainRequest, if_neg (by simp [hno])] at hr
  cases hr
  refine ⟨hp, fun k hk => ?_, by simp, .inl (List.mem_singleton.mpr rfl)⟩
  rw [List.mem_singleton.mp hk]
  exact (txns t).primary_mem

theorem commitPrimaryAcked (hstage : (s.client t).stage = .committingPrimary)
    (hmem : (.kv (.commit t [(txns t).primary] (s.client t).commitTS), .kv (.error none)) ∈
      s.replies) : Inv txns (s.setStage t .committingSecondaries) st phase := by
  obtain ⟨hno, hp⟩ := h.clientOk hstage
  have hcommitted := h.plain_reply (by rw [plainRequest, if_neg (by simp [hno])]) hmem rfl
    (txns t).primary (List.mem_singleton.mpr rfl)
  exact h.setClient ⟨_, hp, hcommitted, fun _ => rfl, by simp [hno]⟩

theorem checkPrimaryReplied {status : TxnStatus} (hstage : (s.client t).stage = .checkingPrimary)
    (hmem : (.kv (.checkPrimaryStatus t), .kv (.status status)) ∈ s.replies)
    (httl : status.isLocked = true → 0 < lockTtl status) :
    Inv txns (s.setStage t (afterCheck (primaryStatus status))) st phase := by
  obtain ⟨hno, hp⟩ := h.clientOk hstage
  have hstarted : phase t ≠ .idle := (h.clients t).started (by simp [hstage])
  obtain ⟨hcommitted, hrolled⟩ := h.plain_reply rfl hmem
  refine h.setClient ?_
  unfold primaryStatus
  by_cases hversion : commitVersion status ≠ 0
  · rw [if_pos hversion]
    have hne : status.commitTS ≠ 0 := by
      unfold commitVersion at hversion
      split at hversion
      · exact absurd rfl hversion
      · exact hversion
    have hphase := h.plain.status.committed_at _ t _ (hcommitted hne)
    have heq : status.commitTS = (s.client t).commitTS :=
      Phase.committing.inj (hphase.symm.trans hp)
    exact ⟨_, hphase, hcommitted hne, fun _ => heq, by simp [hno]⟩
  · rw [if_neg hversion]
    by_cases hpos : 0 < lockTtl status
    · rw [if_pos hpos]
      exact hstarted
    · rw [if_neg hpos]
      have hunlocked : status.isLocked = false := by
        rw [← Bool.not_eq_true]
        exact fun hlocked => hpos (httl hlocked)
      have hzero : status.commitTS = 0 := by
        simpa [commitVersion, hunlocked] using hversion
      exact ⟨hstarted, .inr (hrolled hunlocked hzero)⟩

theorem commitSecondaries
    (hstage : (s.client t).stage = .committingSecondaries) (hne : keys ≠ []) (hn : keys.Nodup)
    (hkeys : ∀ k ∈ keys, k ∈ (txns t).keys) :
    Inv txns (s.send (.kv (.commit t keys (s.client t).commitTS))) st phase := by
  obtain ⟨c, hp, hprimary, heq, hall⟩ := h.clientOk hstage
  refine h.send (fun r hr => ?_) (.inr ⟨⟨c, hprimary⟩, hne, fun honePC k hk => ⟨c, ?_⟩⟩)
  · rw [plainRequest] at hr
    split at hr
    · cases hr
    · rename_i hno
      cases hr
      have hc : c = (s.client t).commitTS := heq (by simpa using hno)
      exact ⟨hc ▸ hp, hkeys, hn, .inr (hc ▸ hprimary)⟩
  · exact hall honePC k (hkeys k hk)

theorem rollback (hstage : (s.client t).stage = .rollingBack) (hn : keys.Nodup)
    (hkeys : ∀ k ∈ keys, k ∈ (txns t).keys) :
    Inv txns (s.send (.kv (.batchRollback t keys))) st phase := by
  obtain ⟨hstarted, hrolled⟩ := h.clientOk hstage
  refine h.send (fun r hr => ?_) trivial
  cases hr
  exact ⟨hstarted, hkeys, hn, hrolled⟩

theorem stepClient (hcareful : Careful txns s (.client t a))
    (hs : Committer.stepClient txns s t a = some s') : ∃ phase', Inv txns s' st phase' := by
  cases a with
  | prewriteRegion r maxCommitTS =>
    rw [Committer.stepClient] at hs
    split at hs
    · rename_i done hstage
      obtain ⟨-, rfl⟩ := of_guard hs
      exact ⟨phase, h.prewriteRegion hstage⟩
    · cases hs
  | prewriteAcked r ts =>
    rw [Committer.stepClient] at hs
    split at hs
    · rename_i done hstage
      obtain ⟨⟨hr, hacked⟩, rfl⟩ := of_guard hs
      exact ⟨phase, h.prewriteAcked hstage hr hacked⟩
    · cases hs
  | prewriteFailed =>
    rw [Committer.stepClient] at hs
    split at hs
    · rename_i done hstage
      cases hs
      exact h.giveUp (Stage.isPrewriting_iff.mpr ⟨done, hstage⟩) hcareful
    · cases hs
  | getTS ts =>
    obtain ⟨⟨hpre, hnow⟩, rfl⟩ := of_guard hs
    exact h.getTS hpre hnow
  | getTSFailed =>
    obtain ⟨hpre, rfl⟩ := of_guard hs
    obtain ⟨done, hstage, -⟩ := prewritten_iff.mp hpre
    exact h.giveUp (Stage.isPrewriting_iff.mpr ⟨done, hstage⟩) hcareful
  | commitPrimary =>
    obtain ⟨hstage, rfl⟩ := of_guard hs
    exact ⟨phase, h.commitPrimary hstage⟩
  | commitPrimaryAcked =>
    obtain ⟨⟨hstage, hmem⟩, rfl⟩ := of_guard hs
    exact ⟨phase, h.commitPrimaryAcked hstage hmem⟩
  | commitPrimaryFailed =>
    obtain ⟨hstage, rfl⟩ := of_guard hs
    have hok := h.clientOk hstage
    exact ⟨phase, h.setClient hok⟩
  | checkPrimary =>
    obtain ⟨hstage, rfl⟩ := of_guard hs
    obtain ⟨-, hp⟩ := h.clientOk hstage
    refine ⟨phase, h.send (fun r hr => ?_) trivial⟩
    cases hr
    exact ⟨_, hp⟩
  | checkPrimaryReplied status =>
    obtain ⟨⟨hstage, hmem⟩, rfl⟩ := of_guard hs
    exact ⟨phase, h.checkPrimaryReplied hstage hmem hcareful⟩
  | checkPrimaryFailed =>
    obtain ⟨hstage, rfl⟩ := of_guard hs
    exact ⟨phase, h.setClient ((h.clients t).started (by simp [hstage]))⟩
  | commitSecondaries keys =>
    obtain ⟨⟨hstage, -, hne, hn, hkeys⟩, rfl⟩ := of_guard hs
    exact ⟨phase, h.commitSecondaries hstage hne hn fun k hk => (hkeys k hk).1⟩
  | rollback keys =>
    obtain ⟨⟨hstage, hn, hkeys⟩, rfl⟩ := of_guard hs
    exact ⟨phase, h.rollback hstage hn hkeys⟩
  | finish =>
    rw [Committer.stepClient] at hs
    split at hs
    · rename_i hstage
      cases hs
      obtain ⟨c, hp, hprimary, -⟩ := h.clientOk hstage
      exact ⟨phase, h.setClient ⟨by simp [hp], c, hprimary⟩⟩
    · rename_i hstage
      cases hs
      have hok := h.clientOk hstage
      exact ⟨phase, h.setClient hok⟩
    · cases hs

end

theorem plain_reported (s : State) (phase : TimeStamp → Phase) {c : TimeStamp}
    (h : s.reported t c = true) : TwoPhaseCommit.reported (s.plain txns phase) t c = true := by
  obtain ⟨⟨req, reply⟩, hmem, hx⟩ := List.any_eq_true.mp h
  cases req with
  | onePC t' maxCommitTS => cases hx
  | kv req =>
    cases reply with
    | onePC errs ts => cases req <;> cases hx
    | kv reply =>
      cases req with
      | checkTxnStatus t' caller rb =>
        cases reply with
        | status x =>
          exact List.any_eq_true.mpr ⟨_, List.mem_filterMap.mpr ⟨_, hmem, rfl⟩, hx⟩
        | _ => cases hx
      | _ => cases reply <;> cases hx

theorem step (h : Inv txns s st phase) {a : Action} (hcareful : Careful txns s a)
    (hs : Committer.step txns s a = some s') : ∃ st' phase', Inv txns s' st' phase' := by
  cases a with
  | begin t =>
    obtain ⟨⟨hstage, hnow⟩, rfl⟩ := of_guard hs
    have hidle : phase t = .idle := h.clientOk hstage
    exact ⟨st, _, h.setPhase (by simp) (.inl hidle)
      (h.plain.clock.tick hnow.le (.inl ⟨rfl, rfl, hnow⟩)) (by simp) hcareful
      (.inl ⟨rfl, fun _ => rfl, by simp⟩)⟩
  | client t a => exact ⟨st, h.stepClient hcareful hs⟩
  | checkTxnStatus t caller rb =>
    obtain ⟨hstage, rfl⟩ := of_guard hs
    refine ⟨st, phase, h.send (fun r hr => ?_) trivial⟩
    cases hr
    exact (h.clients t).started hstage
  | resolveLock t keys c =>
    obtain ⟨⟨hrep, -, hn⟩, rfl⟩ := of_guard hs
    refine ⟨st, phase, h.send (fun r hr => ?_) trivial⟩
    cases hr
    exact ⟨hn, h.plain.of_reported (plain_reported s phase hrep)⟩
  | deliver req pdTS =>
    obtain ⟨⟨hsent, hpd⟩, rfl⟩ := of_guard hs
    exact h.deliver hsent hpd hcareful

end Inv

theorem inv_start : Inv txns (system txns).start (fun _ _ => .absent) fun _ => .idle where
  plain := TwoPhaseCommit.inv_start
  clients _ := rfl
  served _ h := absurd rfl h
  sent := by simp [system]
  replies := by simp [system]

/-! ### Answers are final -/

theorem stepClient_of_returned {s : State} {t : TimeStamp}
    (h : (s.client t).stage = .returned v) (a : ClientAction) : stepClient txns s t a = none := by
  cases a <;> simp [stepClient, State.prewritten, h]

theorem stepClient_of_ne {s s' : State} {t t' : TimeStamp} (ht : t ≠ t')
    (hs : stepClient txns s t' a = some s') : s'.client t = s.client t := by
  have hset : ∀ c, update s.client t' c t = s.client t :=
    fun c => update_of_ne ht ..
  cases a with
  | prewriteRegion r maxCommitTS =>
    rw [stepClient] at hs
    split at hs
    · obtain ⟨-, rfl⟩ := of_guard hs
      rfl
    · cases hs
  | prewriteAcked r ts =>
    rw [stepClient] at hs
    split at hs
    · obtain ⟨-, rfl⟩ := of_guard hs
      exact hset _
    · cases hs
  | prewriteFailed =>
    rw [stepClient] at hs
    split at hs
    · cases hs
      exact hset _
    · cases hs
  | finish =>
    rw [stepClient] at hs
    split at hs
    · cases hs
      exact hset _
    · cases hs
      exact hset _
    · cases hs
  | commitPrimary | checkPrimary | commitSecondaries keys | rollback keys =>
    obtain ⟨-, rfl⟩ := of_guard hs
    rfl
  | _ =>
    obtain ⟨-, rfl⟩ := of_guard hs
    exact hset _

theorem step_returned {s s' : State} {a : Action} {t : TimeStamp}
    (h : (s.client t).stage = .returned v) (hs : step txns s a = some s') :
    (s'.client t).stage = .returned v := by
  cases a with
  | begin t' =>
    obtain ⟨⟨hidle, -⟩, rfl⟩ := of_guard hs
    have ht : t ≠ t' := by
      rintro rfl
      rw [hidle] at h
      cases h
    exact (congrArg Client.stage (update_of_ne ht ..)).trans h
  | client t' a =>
    have ht : t ≠ t' := by
      rintro rfl
      rw [step, stepClient_of_returned h] at hs
      cases hs
    rw [stepClient_of_ne ht hs]
    exact h
  | checkTxnStatus t' caller rb | resolveLock t' keys c | deliver req pdTS =>
    obtain ⟨-, rfl⟩ := of_guard hs
    exact h

/-- **Careful runs give truthful answers**, and an error without `commitStatusUnknown`
stays true in every continuation. -/
theorem truthful_of_careful {s : State} (h : (system txns).ReachableWhen (Careful txns) s) :
    Truthful txns s ∧ ∀ t, (s.client t).stage = .returned (.error false) →
      ∀ as s', (system txns).runWhen (Careful txns) s as = some s' →
        ∀ k ∈ (txns t).keys, ¬ HasCommitRecord s'.store k t := by
  have htruthful : ∀ s, (system txns).ReachableWhen (Careful txns) s → Truthful txns s := by
    intro s h
    obtain ⟨st, phase, hinv⟩ := h.invariant (P := fun s => ∃ st phase, Inv txns s st phase)
      ⟨_, _, inv_start⟩ fun _ _ _ ⟨_, _, hinv⟩ hcareful hs => hinv.step hcareful hs
    exact hinv.truthful
  refine ⟨htruthful s h, fun t hstage as s' hrun => ?_⟩
  have hreturned : (s'.client t).stage = .returned (.error false) :=
    run_invariant (P := fun s => (s.client t).stage = .returned (.error false))
      (fun _ _ _ h _ hs => step_returned h hs) hstage hrun
  exact (htruthful s' (reachableWhen_of_run h hrun)).error t hreturned

def mixed (t : TimeStamp) : Spec where
  toTxnSpec := TwoPhaseCommit.twoPuts
  try1PC := t = 1

def carefulRun : List Action :=
  [.begin 1, .client 1 (.prewriteRegion 1 0), .deliver (.onePC 1 0) (some 2),
   .client 1 (.prewriteAcked 1 2), .client 1 (.getTS 3), .client 1 (.commitSecondaries [[2]]),
   .deliver (.kv (.commit 1 [[2]] 3)) none, .client 1 .finish,
   .begin 5, .client 5 (.prewriteRegion 1 0),
   .deliver (.kv (.prewrite 5 ((mixed 5).group 1) 0)) none, .client 5 (.prewriteAcked 1 0),
   .client 5 (.getTS 6), .client 5 .commitPrimary, .deliver (.kv (.commit 5 [[1]] 6)) none,
   .client 5 .commitPrimaryAcked, .client 5 .finish,
   .begin 7, .client 7 .prewriteFailed, .client 7 .finish]

theorem truthful_carefulRun : ∃ s, (system mixed).ReachableWhen (Careful mixed) s ∧
    (s.client 1).stage = .returned .ok ∧ (s.client 5).stage = .returned .ok ∧
    (s.client 7).stage = .returned (.error false) ∧ Truthful mixed s := by
  obtain ⟨s, hs, h1, h5, h7⟩ : ∃ s, (system mixed).runWhen (Careful mixed) (system mixed).start
      carefulRun = some s ∧ (s.client 1).stage = .returned .ok ∧
      (s.client 5).stage = .returned .ok ∧ (s.client 7).stage = .returned (.error false) :=
    ⟨_, rfl, rfl, rfl, rfl⟩
  have hreach := reachableWhen_of_run .start hs
  exact ⟨s, hreach, h1, h5, h7, (truthful_of_careful hreach).1⟩

end Committer
