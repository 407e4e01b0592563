/-
Two-phase commit is atomic as long as no prewrite comes late.

The invariant relates the statuses of each transaction on its keys to the phase
of its client and to all messages ever sent:
-/
import Gookv.TwoPhaseCommit

open Txntypes Mvcc Txn Storage

namespace TwoPhaseCommit

open StepSystem

open Function List Option TwoPhaseCommit
open Committer (commitVersion lockTtl)

variable {txns : TimeStamp → TxnSpec}

structure Progress (st : Statuses) (phase : TimeStamp → Phase) (st' : Statuses)
    (phase' : TimeStamp → Phase) : Prop where
  committed : ∀ k t c, st k t = .committed c → st' k t = .committed c
  rolledBack : ∀ k t, st k t = .rolledBack → st' k t = .rolledBack
  touched : ∀ k t, st k t ≠ .absent → st' k t ≠ .absent
  started : ∀ t, phase t ≠ .idle → phase' t ≠ .idle
  committing : ∀ t c, phase t = .committing c → phase' t = .committing c
  aborted : ∀ t, phase t = .aborted → phase' t = .aborted

theorem Progress.refl (st : Statuses) (phase : TimeStamp → Phase) : Progress st phase st phase :=
  ⟨fun _ _ _ => id, fun _ _ => id, fun _ _ => id, fun _ => id, fun _ _ => id, fun _ => id⟩

variable {keys : List Key} {p : Phase} {req : Request} {s : State} {st : Statuses} {t : TimeStamp}

theorem Progress.of_moved {s s' : Store} {st' : Statuses} (h : Rep s st)
    (hm : Moved s st t s' st') (phase : TimeStamp → Phase) : Progress st phase st' phase := by
  refine ⟨fun k t' c hst => ?_, fun k t' hst => ?_, fun k t' hst => ?_, fun _ => id,
    fun _ _ => id, fun _ => id⟩
  · rcases hm.status_cases h k t' with heq | ⟨hs | hs, _⟩
    · exact heq.trans hst
    · exact absurd (hs.symm.trans hst) (by simp)
    · exact absurd (hs.symm.trans hst) (by simp)
  · rcases hm.status_cases h k t' with heq | ⟨hs | hs, _⟩
    · exact heq.trans hst
    · exact absurd (hs.symm.trans hst) (by simp)
    · exact absurd (hs.symm.trans hst) (by simp)
  · rcases hm.status_cases h k t' with heq | ⟨_, hne⟩
    · rwa [heq]
    · exact hne

theorem Progress.of_phase {phase : TimeStamp → Phase}
    (h : phase t = .idle ∨ phase t = .prewriting) (hp : p ≠ .idle) :
    Progress st phase st (update phase t p) := by
  refine ⟨fun _ _ _ => id, fun _ _ => id, fun _ _ => id, fun t' ht' => ?_, fun t' c ht' => ?_,
    fun t' ht' => ?_⟩
  · by_cases ht : t' = t
    · subst ht
      rwa [update_self]
    · rwa [update_of_ne ht]
  · have ht : t' ≠ t := by
      rintro rfl
      rcases h with h | h <;> exact absurd (h.symm.trans ht') (by simp)
    rwa [update_of_ne ht]
  · have ht : t' ≠ t := by
      rintro rfl
      rcases h with h | h <;> exact absurd (h.symm.trans ht') (by simp)
    rwa [update_of_ne ht]

structure ClockInv (now : TimeStamp) (phase : TimeStamp → Phase) : Prop where
  le_now : ∀ t, phase t ≠ .idle → t ≤ now
  commitTS_le_now : ∀ t c, phase t = .committing c → t < c ∧ c ≤ now
  commitTS_ne : ∀ t t' c, phase t = .committing c → phase t' ≠ .idle → c ≠ t'
  commitTS_inj : ∀ t t' c, phase t = .committing c → phase t' = .committing c → t = t'

variable (txns) in
structure StatusInv (st : Statuses) (phase : TimeStamp → Phase) : Prop where
  own : ∀ k t, st k t ≠ .absent → phase t ≠ .idle ∧ k ∈ (txns t).keys
  committed_at : ∀ k t c, st k t = .committed c → phase t = .committing c
  primary_first : ∀ k t c, st k t = .committed c → st (txns t).primary t = .committed c
  rolledBack_by : ∀ k t, st k t = .rolledBack →
    phase t = .aborted ∨ st (txns t).primary t = .rolledBack
  touched : ∀ t c, phase t = .committing c → ∀ k ∈ (txns t).keys, st k t ≠ .absent

variable (txns) in
def SentOk (st : Statuses) (phase : TimeStamp → Phase) : Request → Prop
  | .prewrite t ms _ =>
    phase t ≠ .idle ∧ (∀ m ∈ ms, m ∈ (txns t).mutations) ∧ (ms.map (·.key)).Nodup
  | .commit t keys c =>
    phase t = .committing c ∧ (∀ k ∈ keys, k ∈ (txns t).keys) ∧ keys.Nodup ∧
      ((txns t).primary ∈ keys ∨ st (txns t).primary t = .committed c)
  | .batchRollback t keys =>
    phase t ≠ .idle ∧ (∀ k ∈ keys, k ∈ (txns t).keys) ∧ keys.Nodup ∧
      (phase t = .aborted ∨ st (txns t).primary t = .rolledBack)
  | .checkTxnStatus t _ _ => phase t ≠ .idle
  | .checkPrimaryStatus t => ∃ c, phase t = .committing c
  | .resolveLock t keys c => keys.Nodup ∧
      (0 < c ∧ st (txns t).primary t = .committed c ∨
        c = 0 ∧ st (txns t).primary t = .rolledBack)

variable (txns) in
def ReplyOk (st : Statuses) : Request × Reply → Prop
  | (.prewrite t ms _, .errors errs) =>
    errs.any Option.isSome = false → ∀ m ∈ ms, st m.key t ≠ .absent
  | (.commit t keys c, .error e) => e = none → ∀ k ∈ keys, st k t = .committed c
  | (.checkPrimaryStatus t, .status x) =>
    (x.commitTS ≠ 0 → st (txns t).primary t = .committed x.commitTS) ∧
      (x.isLocked = false → x.commitTS = 0 → st (txns t).primary t = .rolledBack)
  | (.checkTxnStatus t _ _, .status x) =>
    (x.commitTS ≠ 0 → st (txns t).primary t = .committed x.commitTS) ∧
      (x.isRolledBack = true → st (txns t).primary t = .rolledBack)
  | _ => True

section
variable {st' : Statuses} {phase phase' : TimeStamp → Phase} (hp : Progress st phase st' phase')
include hp

theorem SentOk.progress (h : SentOk txns st phase req) : SentOk txns st' phase' req := by
  cases req with
  | prewrite t ms _ => exact ⟨hp.started t h.1, h.2⟩
  | commit t keys c =>
    obtain ⟨h1, h2, h3, h4⟩ := h
    exact ⟨hp.committing t c h1, h2, h3, h4.imp_right (hp.committed _ t c)⟩
  | batchRollback t keys =>
    obtain ⟨h1, h2, h3, h4⟩ := h
    exact ⟨hp.started t h1, h2, h3, h4.imp (hp.aborted t) (hp.rolledBack _ t)⟩
  | checkTxnStatus t _ _ => exact hp.started t h
  | checkPrimaryStatus t => exact h.imp fun c hc => hp.committing t c hc
  | resolveLock t keys c =>
    exact ⟨h.1, h.2.imp (And.imp_right (hp.committed _ t c)) (And.imp_right (hp.rolledBack _ t))⟩

theorem ReplyOk.progress {x : Request × Reply} (h : ReplyOk txns st x) : ReplyOk txns st' x := by
  obtain ⟨req, reply⟩ := x
  cases req <;> cases reply <;> try trivial
  case prewrite.errors t ms _ errs => exact fun herr m hm => hp.touched _ t (h herr m hm)
  case commit.error t keys c e => exact fun he k hk => hp.committed k t c (h he k hk)
  case checkTxnStatus.status t _ _ x =>
    exact ⟨fun hc => hp.committed _ t _ (h.1 hc), fun hr => hp.rolledBack _ t (h.2 hr)⟩
  case checkPrimaryStatus.status t x =>
    exact ⟨fun hc => hp.committed _ t _ (h.1 hc), fun hl hc => hp.rolledBack _ t (h.2 hl hc)⟩

end

variable (txns) in
structure Inv (s : State) (st : Statuses) : Prop where
  rep : Rep s.store st
  clock : ClockInv s.now s.phase
  status : StatusInv txns st s.phase
  sent : ∀ req ∈ s.sent, SentOk txns st s.phase req
  replies : ∀ x ∈ s.replies, ReplyOk txns st x

variable (txns) in
def Advances (st : Statuses) (s s' : State) : Prop :=
  ∃ st', Progress st s.phase st' s'.phase ∧ Inv txns s' st'

/-! ### Deliveries -/

theorem StatusInv.set {phase : TimeStamp → Phase} {v : KeyStatus} (h : StatusInv txns st phase)
    (hp : Progress st phase (setStatus st keys t v) phase) (ht : phase t ≠ .idle)
    (hkeys : ∀ k ∈ keys, k ∈ (txns t).keys) (hv : v = .locked ∨
      (∃ c, v = .committed c ∧ phase t = .committing c ∧
        ((txns t).primary ∈ keys ∨ st (txns t).primary t = .committed c)) ∨
      (v = .rolledBack ∧ (phase t = .aborted ∨ (txns t).primary ∈ keys ∨
        st (txns t).primary t = .rolledBack))) : StatusInv txns (setStatus st keys t v) phase := by
  constructor
  case own =>
    intro k t' hst
    rcases setStatus_cases st keys t v k t' with ⟨hk, rfl, -⟩ | heq
    · exact ⟨ht, hkeys k hk⟩
    · exact h.own k t' (heq ▸ hst)
  case committed_at =>
    intro k t' c hst
    rcases setStatus_cases st keys t v k t' with ⟨hk, rfl, heq⟩ | heq
    · rw [heq] at hst
      rcases hv with rfl | ⟨c', rfl, hc, -⟩ | ⟨rfl, -⟩
      · cases hst
      · exact KeyStatus.committed.inj hst ▸ hc
      · cases hst
    · exact h.committed_at k t' c (heq ▸ hst)
  case primary_first =>
    intro k t' c hst
    rcases setStatus_cases st keys t v k t' with ⟨hk, rfl, heq⟩ | heq
    · rw [heq] at hst
      rcases hv with rfl | ⟨c', rfl, -, hprim | hprim⟩ | ⟨rfl, -⟩
      · cases hst
      · exact (setStatus_self hprim).trans hst
      · exact (hp.committed _ _ _ hprim).trans hst
      · cases hst
    · exact hp.committed _ _ _ (h.primary_first k t' c (heq ▸ hst))
  case rolledBack_by =>
    intro k t' hst
    rcases setStatus_cases st keys t v k t' with ⟨hk, rfl, heq⟩ | heq
    · rw [heq] at hst
      rcases hv with rfl | ⟨c', rfl, -⟩ | ⟨rfl, hab | hprim | hprim⟩
      · cases hst
      · cases hst
      · exact .inl hab
      · exact .inr (setStatus_self hprim)
      · exact .inr (hp.rolledBack _ _ hprim)
    · exact (h.rolledBack_by k t' (heq ▸ hst)).imp_right (hp.rolledBack _ _)
  case touched =>
    intro t' c hc k hk
    exact hp.touched k t' (h.touched t' c hc k hk)

section
variable (h : Inv txns s st) {c caller : TimeStamp} {rb : Bool}
include h

variable {reply : Reply} {store' : Store}

theorem Inv.moved {st' : Statuses} (hm : Moved s.store st t store' st')
    (hst : Progress st s.phase st' s.phase → StatusInv txns st' s.phase)
    (hreply : Progress st s.phase st' s.phase → ReplyOk txns st' (req, reply)) :
    Advances txns st s (s.answered req (reply, store')) := by
  have hp := Progress.of_moved h.rep hm s.phase
  refine ⟨st', hp, h.rep.moved hm, h.clock, hst hp, fun r hr => (h.sent r hr).progress hp, ?_⟩
  intro x hx
  rcases mem_cons.mp hx with rfl | hx
  · exact hreply hp
  · exact (h.replies x hx).progress hp

theorem Inv.unchanged (hreply : ReplyOk txns st (req, reply)) :
    Advances txns st s (s.answered req (reply, s.store)) :=
  h.moved (Moved.refl s.store st 0) (fun _ => h.status) fun _ => hreply

theorem Inv.ne_committed
    (ht : s.phase t ≠ .idle) (k : Key) (t' : TimeStamp) : st k t' ≠ .committed t :=
  fun hst => h.clock.commitTS_ne t' t t (h.status.committed_at k t' t hst) ht rfl

theorem Inv.commitTS_free (hc : s.phase t = .committing c) :
    t < c ∧ (∀ k t', st k t' = .committed c → t' = t) ∧ ∀ k, st k c ≠ .rolledBack := by
  refine ⟨(h.clock.commitTS_le_now t c hc).1, fun k t' hst => ?_, fun k hst => ?_⟩
  · exact h.clock.commitTS_inj t' t c (h.status.committed_at k t' c hst) hc
  · exact h.clock.commitTS_ne t c c hc (h.status.own k c (by simp [hst])).1 rfl

theorem Inv.deliver_prewrite {ms : List Mutation} {maxTS : TimeStamp}
    (hsent : .prewrite t ms maxTS ∈ s.sent) (hlate : NoLateLock s.store t (ms.map (·.key))) :
    Advances txns st s (s.answered (.prewrite t ms maxTS)
      (execute txns s.store (.prewrite t ms maxTS))) := by
  obtain ⟨hstarted, hms, hn⟩ := h.sent _ hsent
  have hspec : ∃ errs store', execute txns s.store (.prewrite t ms maxTS) =
      (.errors errs, store') ∧
      ((errs.any isSome = true ∧ store' = s.store) ∨
      (errs.any isSome = false ∧
        (∀ m ∈ ms, st m.key t = .absent ∨ st m.key t = .locked) ∧
        Moved s.store st t store' (setStatus st (ms.map (·.key)) t .locked))) := by
    unfold execute
    dsimp only
    split
    · exact ⟨_, _, rfl, prewriteAsyncCommit_spec h.rep hn hlate rfl⟩
    · exact ⟨_, _, rfl, prewrite_spec h.rep hn hlate rfl⟩
  obtain ⟨errs, store', heq, ⟨herr, rfl⟩ | ⟨herr, -, hm⟩⟩ := hspec
  · rw [heq]
    refine h.unchanged fun hno => ?_
    rw [herr] at hno
    cases hno
  · rw [heq]
    refine h.moved hm (fun hp => h.status.set hp hstarted ?_ (.inl rfl)) ?_
    · intro k hk
      obtain ⟨m, hm', rfl⟩ := mem_map.mp hk
      exact mem_map_of_mem (hms m hm')
    · intro _ _ m hm'
      rw [setStatus_self (mem_map_of_mem hm')]
      simp

theorem Inv.deliver_commit (hsent : .commit t keys c ∈ s.sent) :
    Advances txns st s (s.answered (.commit t keys c)
      (execute txns s.store (.commit t keys c))) := by
  obtain ⟨hphase, hkeys, hn, hprim⟩ := h.sent _ hsent
  obtain ⟨hlt, hc, hr⟩ := h.commitTS_free hphase
  obtain ⟨e, store', hrun⟩ : ∃ e store', Storage.commit s.store keys t c = (e, store') :=
    ⟨_, _, rfl⟩
  simp only [execute, hrun]
  rcases commit_spec h.rep hn hlt hc hr hrun with ⟨herr, rfl⟩ | ⟨-, -, hm⟩
  · exact h.unchanged fun hno => absurd hno herr
  · exact h.moved hm (fun hp => h.status.set hp (by simp [hphase]) hkeys
      (.inr (.inl ⟨c, rfl, hphase, hprim⟩))) fun _ _ k hk => setStatus_self hk

theorem Inv.deliver_batchRollback (hsent : .batchRollback t keys ∈ s.sent) :
    Advances txns st s (s.answered (.batchRollback t keys)
      (execute txns s.store (.batchRollback t keys))) := by
  obtain ⟨hstarted, hkeys, hn, hby⟩ := h.sent _ hsent
  obtain ⟨e, store', hrun⟩ : ∃ e store', Storage.batchRollback s.store keys t = (e, store') :=
    ⟨_, _, rfl⟩
  simp only [execute, hrun]
  rcases batchRollback_spec h.rep hn (h.ne_committed hstarted) hrun with ⟨-, rfl⟩ | ⟨-, -, hm⟩
  · exact h.unchanged trivial
  · exact h.moved hm (fun hp => h.status.set hp hstarted hkeys
      (.inr (.inr ⟨rfl, hby.imp_right .inr⟩))) fun _ => trivial

theorem Inv.deliver_resolveLock (hsent : .resolveLock t keys c ∈ s.sent) :
    Advances txns st s (s.answered (.resolveLock t keys c)
      (execute txns s.store (.resolveLock t keys c))) := by
  obtain ⟨hn, hprim⟩ := h.sent _ hsent
  obtain ⟨e, store', hrun⟩ : ∃ e store', Storage.resolveLock s.store t c keys = (e, store') :=
    ⟨_, _, rfl⟩
  have hkeys : ∀ k ∈ lockedKeys st keys t, k ∈ (txns t).keys := fun k hk =>
    (h.status.own k t (by simp [(mem_lockedKeys.mp hk).2])).2
  simp only [execute, hrun]
  rcases hprim with ⟨hc, hprim⟩ | ⟨hc, hprim⟩
  · have hphase := h.status.committed_at _ _ _ hprim
    rcases resolveLock_spec h.rep hn (.inl ⟨hc, rfl, h.commitTS_free hphase⟩) hrun with
      ⟨-, rfl⟩ | ⟨-, hm⟩
    · exact h.unchanged trivial
    · exact h.moved hm (fun hp => h.status.set hp (by simp [hphase]) hkeys
        (.inr (.inl ⟨c, rfl, hphase, .inr hprim⟩))) fun _ => trivial
  · have hstarted : s.phase t ≠ .idle := (h.status.own (txns t).primary t (by simp [hprim])).1
    rcases resolveLock_spec h.rep hn (.inr ⟨hc, rfl, h.ne_committed hstarted⟩) hrun with
      ⟨-, rfl⟩ | ⟨-, hm⟩
    · exact h.unchanged trivial
    · exact h.moved hm (fun hp => h.status.set hp hstarted hkeys
        (.inr (.inr ⟨rfl, .inr (.inr hprim)⟩))) fun _ => trivial

theorem Inv.check {x : TxnStatus} (hstarted : s.phase t ≠ .idle)
    (hrun : Storage.checkTxnStatusWithCleanup s.store (txns t).primary t caller rb = (x, store'))
    (hreply : ∀ st', (x.commitTS ≠ 0 → st' (txns t).primary t = .committed x.commitTS) →
      (x.isRolledBack = true → st' (txns t).primary t = .rolledBack) →
      (x.isLocked = false → x.commitTS = 0 → st' (txns t).primary t = .rolledBack ∨
        st (txns t).primary t = .absent) → ReplyOk txns st' (req, .status x)) :
    Advances txns st s (s.answered req (.status x, store')) := by
  rcases checkTxnStatus_spec h.rep (h.ne_committed hstarted) hrun with ⟨rfl, hcases⟩ | ⟨rfl, -, hm⟩
  · refine h.unchanged (hreply st ?_ ?_ ?_)
    · rcases hcases with ⟨_, _, _, hc⟩ | ⟨hst, _, _⟩ | ⟨_, rfl⟩ | ⟨_, rfl⟩
      · exact fun hne => absurd hc hne
      · exact fun _ => hst
      · exact fun hne => absurd rfl hne
      · exact fun hne => absurd rfl hne
    · rcases hcases with ⟨_, _, hr, _⟩ | ⟨_, _, hr⟩ | ⟨hst, _⟩ | ⟨_, rfl⟩
      · exact fun hr' => absurd (hr.symm.trans hr') (by simp)
      · exact fun hr' => absurd (hr.symm.trans hr') (by simp)
      · exact fun _ => hst
      · exact fun hr' => absurd hr' (by simp)
    · rcases hcases with ⟨_, hl, _, _⟩ | ⟨hst, _, _⟩ | ⟨hst, _⟩ | ⟨hst, _⟩
      · exact fun hl' _ => absurd (hl.symm.trans hl') (by simp)
      · intro _ hc
        have hlt := (h.commitTS_free (h.status.committed_at _ _ _ hst)).1
        rw [hc] at hlt
        exact absurd hlt (by grind)
      · exact fun _ _ => .inl hst
      · exact fun _ _ => .inr hst
  · have hself : setStatus st [(txns t).primary] t .rolledBack (txns t).primary t =
        .rolledBack := setStatus_self (by simp)
    refine h.moved hm (fun hp => h.status.set hp hstarted ?_
      (.inr (.inr ⟨rfl, .inr (.inl (by simp))⟩))) fun _ => hreply _ ?_ ?_ ?_
    · intro k hk
      rw [mem_singleton.mp hk]
      exact (txns t).primary_mem
    · exact fun hne => absurd rfl hne
    · exact fun _ => hself
    · exact fun _ _ => .inl hself

theorem Inv.deliver_checkTxnStatus (hsent : .checkTxnStatus t caller rb ∈ s.sent) :
    Advances txns st s (s.answered (.checkTxnStatus t caller rb)
      (execute txns s.store (.checkTxnStatus t caller rb))) :=
  h.check (h.sent _ hsent) rfl fun _ hc hr _ => ⟨hc, hr⟩

theorem Inv.deliver_checkPrimaryStatus (hsent : .checkPrimaryStatus t ∈ s.sent) :
    Advances txns st s (s.answered (.checkPrimaryStatus t)
      (execute txns s.store (.checkPrimaryStatus t))) := by
  obtain ⟨c, hphase⟩ := h.sent _ hsent
  refine h.check (by simp [hphase]) rfl fun st' hc _ hn => ⟨hc, fun hl h0 => ?_⟩
  -- a client that commits has prewritten its primary
  exact (hn hl h0).resolve_right (h.status.touched t c hphase _ (txns t).primary_mem)

/-! ### Sends and phase changes -/

end

/-- Every check of a primary that met a lock reported its TTL. -/
def TtlsShown (s : State) : Prop :=
  ∀ t x, (.checkPrimaryStatus t, .status x) ∈ s.replies → x.isLocked = true → 0 < lockTtl x

theorem TtlsShown.deliver (h : TtlsShown s) (hshown : LockShown txns s (.deliver req)) :
    TtlsShown (s.answered req (execute txns s.store req)) := by
  intro t x hx hl
  rcases mem_cons.mp hx with heq | hx
  · obtain ⟨rfl, hst⟩ := Prod.mk.inj heq
    obtain rfl : x = (Txn.checkTxnStatusWithCleanup s.store (txns t).primary t 0 false).1 :=
      Reply.status.inj hst
    rcases checkTxnStatusWithCleanup_cases s.store (txns t).primary t 0 false with
      ⟨lock, hlock, ht, hc⟩ | ⟨-, ms, hc, -⟩ | ⟨-, ⟨q, -, hc⟩ | ⟨-, hc⟩⟩ <;> rw [hc] at hl ⊢
    · exact hshown lock hlock ht
    · cases hl
    · dsimp only [TxnStatus.ofRecord] at hl
      split at hl <;> cases hl
    · cases hl
  · exact h t x hx hl

variable {a : Action} {s' : State} {ts : TimeStamp}

theorem TtlsShown.step (h : TtlsShown s) (hshown : LockShown txns s a)
    (hs : step txns s a = some s') : TtlsShown s' := by
  cases a with
  | deliver req =>
    obtain ⟨-, rfl⟩ := of_guard hs
    exact h.deliver hshown
  | _ =>
    obtain ⟨-, rfl⟩ := of_guard hs
    exact h

theorem acked_iff {m : Mutation} :
    acked s t m = true ↔ ∃ ms maxTS errs, (.prewrite t ms maxTS, .errors errs) ∈ s.replies ∧
      m ∈ ms ∧ errs.any Option.isSome = false := by
  rw [acked, List.any_eq_true]
  constructor
  · rintro ⟨⟨req, reply⟩, hmem, hx⟩
    cases req <;> cases reply <;> try exact absurd hx Bool.false_ne_true
    case prewrite.errors t' ms maxTS errs =>
      obtain ⟨rfl, hm, herr⟩ := of_decide_eq_true hx
      exact ⟨ms, maxTS, errs, hmem, hm, by simpa using herr⟩
  · rintro ⟨ms, maxTS, errs, hmem, hm, herr⟩
    exact ⟨_, hmem, by simp [hm, herr]⟩

section
variable (h : Inv txns s st)
include h

theorem Inv.of_primaryCommitted (hc : primaryCommitted txns s t = true) :
    ∃ c, st (txns t).primary t = .committed c := by
  obtain ⟨⟨req, reply⟩, hmem, hx⟩ := any_eq_true.mp hc
  have hok := h.replies _ hmem
  cases req <;> cases reply <;> try exact absurd hx Bool.false_ne_true
  case commit.error t' keys c e =>
    cases e with
    | some e => exact absurd hx Bool.false_ne_true
    | none =>
      obtain ⟨rfl, hprim⟩ := of_decide_eq_true hx
      exact ⟨c, hok rfl _ hprim⟩
  case checkPrimaryStatus.status t' x =>
    obtain ⟨rfl, hne⟩ := of_decide_eq_true hx
    refine ⟨x.commitTS, hok.1 fun h0 => hne ?_⟩
    rw [commitVersion, h0, ite_self]

theorem Inv.of_primaryNotCommitted (hshown : TtlsShown s) (hc : primaryNotCommitted s t = true) :
    st (txns t).primary t = .rolledBack := by
  obtain ⟨⟨req, reply⟩, hmem, hx⟩ := any_eq_true.mp hc
  have hok := h.replies _ hmem
  cases req <;> cases reply <;> try exact absurd hx Bool.false_ne_true
  case checkPrimaryStatus.status t' x =>
    obtain ⟨rfl, h0, httl⟩ := of_decide_eq_true hx
    have hl : x.isLocked = false := Bool.eq_false_of_not_eq_true fun hl =>
      httl (hshown _ _ hmem hl)
    refine hok.2 hl ?_
    simpa [commitVersion, hl] using h0

theorem Inv.of_reported {c : TimeStamp} (hc : reported s t c = true) :
    0 < c ∧ st (txns t).primary t = .committed c ∨
      c = 0 ∧ st (txns t).primary t = .rolledBack := by
  obtain ⟨⟨req, reply⟩, hmem, hx⟩ := any_eq_true.mp hc
  have hok := h.replies _ hmem
  cases req <;> cases reply <;> try exact absurd hx Bool.false_ne_true
  case checkTxnStatus.status t' caller rb x =>
    obtain ⟨rfl, ⟨hpos, rfl⟩ | ⟨rfl, hr⟩⟩ := of_decide_eq_true hx
    · exact .inl ⟨hpos, hok.1 hpos.ne'⟩
    · exact .inr ⟨rfl, hok.2 hr⟩

theorem Inv.sentOk_of_maySend (hshown : TtlsShown s) (hsend : maySend txns s req = true) :
    SentOk txns st s.phase req := by
  cases req with
  | prewrite t ms maxTS =>
    obtain ⟨hphase, hms, hn⟩ := of_decide_eq_true hsend
    exact ⟨by simp [hphase], hms, hn⟩
  | commit t keys c =>
    obtain ⟨hphase, rfl | ⟨hprim, hkeys, hn⟩⟩ := of_decide_eq_true hsend
    · refine ⟨hphase, fun k hk => ?_, by simp, .inl (by simp)⟩
      rw [mem_singleton.mp hk]
      exact (txns t).primary_mem
    · obtain ⟨c', hc'⟩ := h.of_primaryCommitted hprim
      have heq := (h.status.committed_at _ _ _ hc').symm.trans hphase
      rw [Phase.committing.injEq] at heq
      exact ⟨hphase, hkeys, hn, .inr (heq ▸ hc')⟩
  | batchRollback t keys =>
    obtain ⟨hby | hby, hkeys, hn⟩ := of_decide_eq_true hsend
    · exact ⟨by simp [hby], hkeys, hn, .inl hby⟩
    · have hprim := h.of_primaryNotCommitted hshown hby
      exact ⟨(h.status.own _ t (by rw [hprim]; simp)).1, hkeys, hn, .inr hprim⟩
  | checkTxnStatus t caller rb => exact (of_decide_eq_true hsend : s.phase t ≠ .idle)
  | checkPrimaryStatus t =>
    unfold maySend at hsend
    cases hphase : s.phase t with
    | committing c => exact ⟨c, hphase⟩
    | idle | prewriting | aborted => simp [hphase] at hsend
  | resolveLock t keys c =>
    obtain ⟨hrep, -, hn⟩ := of_decide_eq_true hsend
    exact ⟨hn, h.of_reported hrep⟩

theorem Inv.send (hshown : TtlsShown s) (hsend : maySend txns s req = true) :
    Inv txns { s with sent := req :: s.sent } st := by
  refine ⟨h.rep, h.clock, h.status, fun r hr => ?_, h.replies⟩
  rcases mem_cons.mp hr with rfl | hr
  · exact h.sentOk_of_maySend hshown hsend
  · exact h.sent r hr

end

theorem StatusInv.phase {phase : TimeStamp → Phase} (h : StatusInv txns st phase) (hp : p ≠ .idle)
    (ht : phase t = .idle ∨ phase t = .prewriting)
    (htouched : ∀ c, p = .committing c → ∀ k ∈ (txns t).keys, st k t ≠ .absent) :
    StatusInv txns st (update phase t p) := by
  have hprog : Progress st phase st (update phase t p) := Progress.of_phase ht hp
  refine ⟨fun k t' hst => ?_, fun k t' c hst => ?_, h.primary_first, fun k t' hst => ?_,
    fun t' c hc => ?_⟩
  · exact (h.own k t' hst).imp_left (hprog.started t')
  · exact hprog.committing t' c (h.committed_at k t' c hst)
  · exact (h.rolledBack_by k t' hst).imp_left (hprog.aborted t')
  · by_cases heq : t' = t
    · subst heq
      rw [update_self] at hc
      exact htouched c hc
    · rw [update_of_ne heq] at hc
      exact h.touched t' c hc

theorem ClockInv.tick {now : TimeStamp} {phase : TimeStamp → Phase}
    (h : ClockInv now phase) (hts : now ≤ ts) (hp : (p = .prewriting ∧ t = ts ∧ now < ts) ∨
      (p = .committing ts ∧ phase t ≠ .idle ∧ now < ts) ∨
      (p = .aborted ∧ phase t ≠ .idle)) : ClockInv ts (update phase t p) := by
  have hle : ∀ t', update phase t p t' ≠ .idle → t' ≤ ts := by
    intro t' ht'
    by_cases heq : t' = t
    · subst heq
      rcases hp with ⟨-, rfl, -⟩ | ⟨-, ht, -⟩ | ⟨-, ht⟩
      · exact le_rfl
      · exact (h.le_now _ ht).trans hts
      · exact (h.le_now _ ht).trans hts
    · rw [update_of_ne heq] at ht'
      exact (h.le_now t' ht').trans hts
  have hcom : ∀ t' c, update phase t p t' = .committing c →
      (t' = t ∧ c = ts ∧ now < ts ∧ phase t ≠ .idle) ∨ phase t' = .committing c := by
    intro t' c hc
    by_cases heq : t' = t
    · subst heq
      rw [update_self] at hc
      rcases hp with ⟨rfl, -⟩ | ⟨rfl, ht, hlt⟩ | ⟨rfl, -⟩
      · cases hc
      · exact .inl ⟨rfl, (Phase.committing.inj hc).symm, hlt, ht⟩
      · cases hc
    · rw [update_of_ne heq] at hc
      exact .inr hc
  refine ⟨hle, fun t' c hc => ?_, fun t' t'' c hc ht'' => ?_, fun t' t'' c hc hc' => ?_⟩
  · rcases hcom t' c hc with ⟨rfl, rfl, hlt, ht⟩ | hc
    · exact ⟨(h.le_now _ ht).trans_lt hlt, le_rfl⟩
    · exact ⟨(h.commitTS_le_now t' c hc).1, (h.commitTS_le_now t' c hc).2.trans hts⟩
  · have hstarted : phase t'' ≠ .idle ∨ t'' = ts ∧ now < ts ∧ p = .prewriting := by
      by_cases heq : t'' = t
      · subst heq
        rcases hp with ⟨rfl, rfl, hlt⟩ | ⟨-, ht, -⟩ | ⟨-, ht⟩
        · exact .inr ⟨rfl, hlt, rfl⟩
        · exact .inl ht
        · exact .inl ht
      · rw [update_of_ne heq] at ht''
        exact .inl ht''
    rcases hcom t' c hc with ⟨rfl, rfl, hlt, ht⟩ | hc'
    · rcases hstarted with ht'' | ⟨rfl, -, rfl⟩
      · rintro rfl
        exact absurd (h.le_now _ ht'') (not_le.mpr hlt)
      · rw [update_self] at hc
        cases hc
    · rcases hstarted with ht'' | ⟨rfl, hlt, -⟩
      · exact h.commitTS_ne t' t'' c hc' ht''
      · rintro rfl
        exact absurd (h.commitTS_le_now t' _ hc').2 (not_le.mpr hlt)
  · rcases hcom t' c hc with ⟨rfl, rfl, hlt, -⟩ | h1 <;>
      rcases hcom t'' _ hc' with ⟨rfl, heq, hlt', -⟩ | h2
    · rfl
    · exact absurd (h.commitTS_le_now t'' _ h2).2 (not_le.mpr hlt)
    · subst heq
      exact absurd (h.commitTS_le_now t' _ h1).2 (not_le.mpr hlt')
    · exact h.commitTS_inj t' t'' c h1 h2

theorem Inv.phase (h : Inv txns s st) (hp : p ≠ .idle)
    (ht : s.phase t = .idle ∨ s.phase t = .prewriting)
    (hclock : ClockInv ts (update s.phase t p))
    (htouched : ∀ c, p = .committing c → ∀ k ∈ (txns t).keys, st k t ≠ .absent) :
    Inv txns { s with now := ts, phase := update s.phase t p } st := by
  have hprog : Progress st s.phase st (update s.phase t p) :=
    Progress.of_phase ht hp
  exact ⟨h.rep, hclock, h.status.phase hp ht htouched,
    fun r hr => (h.sent r hr).progress hprog, h.replies⟩

/-! ### Runs -/

theorem inv_start : Inv txns (system txns).start fun _ _ => .absent where
  rep _ := Represents.empty
  clock := ⟨by simp [system], by simp [system], by simp [system], by simp [system]⟩
  status := ⟨by simp, by simp, by simp, by simp, by simp [system]⟩
  sent := by simp [system]
  replies := by simp [system]

theorem Inv.deliver (h : Inv txns s st)
    (hsent : req ∈ s.sent) (hlate : NoLatePrewrite s (.deliver req)) :
    Advances txns st s (s.answered req (execute txns s.store req)) := by
  cases req with
  | prewrite t ms maxTS => exact h.deliver_prewrite hsent hlate
  | commit t keys c => exact h.deliver_commit hsent
  | batchRollback t keys => exact h.deliver_batchRollback hsent
  | checkTxnStatus t caller rb => exact h.deliver_checkTxnStatus hsent
  | checkPrimaryStatus t => exact h.deliver_checkPrimaryStatus hsent
  | resolveLock t keys c => exact h.deliver_resolveLock hsent

theorem Inv.step (h : Inv txns s st)
    (hlate : NoLatePrewrite s a) (hshown : TtlsShown s) (hs : step txns s a = some s') :
    ∃ st', Inv txns s' st' := by
  cases a with
  | begin t =>
    obtain ⟨hg, rfl⟩ := of_guard hs
    exact ⟨st, h.phase (by simp) (Or.inl hg.1)
      (h.clock.tick hg.2.le (Or.inl ⟨rfl, rfl, hg.2⟩)) (by simp)⟩
  | send req =>
    obtain ⟨hg, rfl⟩ := of_guard hs
    exact ⟨st, h.send hshown hg⟩
  | deliver req =>
    obtain ⟨hg, rfl⟩ := of_guard hs
    exact (h.deliver hg hlate).imp fun _ => And.right
  | getCommitTS t c =>
    rw [TwoPhaseCommit.step] at hs
    split at hs
    · rename_i hg
      obtain ⟨hphase, hlt, hack⟩ := hg
      cases hs
      refine ⟨st, h.phase (by simp) (Or.inr hphase) (h.clock.tick hlt.le
        (Or.inr (Or.inl ⟨rfl, by simp [hphase], hlt⟩))) fun _ _ k hk => ?_⟩
      -- every mutation was acknowledged, so every key was touched
      obtain ⟨m, hm, rfl⟩ := List.mem_map.mp hk
      obtain ⟨ms, maxTS, errs, hmem, hmm, herr⟩ := acked_iff.mp (hack m hm)
      exact h.replies _ hmem herr m hmm
    · cases hs
  | abort t =>
    obtain ⟨hg, rfl⟩ := of_guard hs
    exact ⟨st, h.phase (by simp) (Or.inr hg) (h.clock.tick le_rfl
      (Or.inr (Or.inr ⟨rfl, by simp [hg]⟩))) (by simp)⟩

theorem Inv.not_torn (h : Inv txns s st) : ¬Torn txns s := by
  rintro ⟨t, k₁, -, k₂, -, -, q₁, h₁, q₂, h₂, rfl, hw₁, ht₂, hw₂⟩
  have hst₁ := (h.rep k₁).of_record q₁ h₁
  have hst₂ := (h.rep k₂).of_record q₂ h₂
  rw [recordStatus, if_neg hw₁] at hst₁
  rw [recordStatus, if_pos hw₂, ht₂] at hst₂
  rcases h.status.rolledBack_by k₂ _ hst₂ with hab | hprim
  · exact absurd ((h.status.committed_at k₁ _ _ hst₁).symm.trans hab) (by simp)
  · exact absurd ((h.status.primary_first k₁ _ _ hst₁).symm.trans hprim) (by simp)

theorem exists_inv (h : (system txns).ReachableWhen (Orderly txns) s) : ∃ st, Inv txns s st :=
  (h.invariant (P := fun s => (∃ st, Inv txns s st) ∧ TtlsShown s)
    ⟨⟨_, inv_start⟩, by simp [TtlsShown, system]⟩
    fun _ _ _ ⟨⟨_, hi⟩, hshown⟩ ho hs => ⟨hi.step ho.1 hshown hs, hshown.step ho.2 hs⟩).1

/-- **Two-phase commit is atomic** in every run in which no prewrite locks a key
that already has a record of its own transaction and no check of a primary meets a lock of
TTL 0. -/
theorem not_torn_of_noLatePrewrite (txns : TimeStamp → TxnSpec) {s : State}
    (h : (system txns).ReachableWhen (Orderly txns) s) : ¬Torn txns s :=
  (exists_inv h).elim fun _ hi => hi.not_torn

def committedRun : List Action :=
  [.begin 1, .send (.prewrite 1 twoPuts.mutations 0), .deliver (.prewrite 1 twoPuts.mutations 0),
   .deliver (.prewrite 1 twoPuts.mutations 0), .getCommitTS 1 2, .send (.commit 1 [[1]] 2),
   .send (.checkPrimaryStatus 1), .deliver (.checkPrimaryStatus 1),
   .deliver (.commit 1 [[1]] 2), .send (.checkTxnStatus 1 786432000 true),
   .deliver (.checkTxnStatus 1 786432000 true), .send (.resolveLock 1 [[2]] 2),
   .deliver (.resolveLock 1 [[2]] 2), .deliver (.prewrite 1 twoPuts.mutations 0)]

theorem not_torn_committedRun :
    ∃ s, (system fun _ => twoPuts).ReachableWhen (Orderly fun _ => twoPuts) s ∧
      (s.store [1]).writes.entries = [(2, ⟨.put, 1, some [7], {}⟩)] ∧
      (s.store [2]).writes.entries = [(2, ⟨.put, 1, some [8], {}⟩)] ∧
      ¬Torn (fun _ => twoPuts) s := by
  have hrun : ∃ s, (system fun _ => twoPuts).runWhen (Orderly fun _ => twoPuts)
      (system fun _ => twoPuts).start committedRun = some s ∧
      (s.store [1]).writes.entries = [(2, ⟨.put, 1, some [7], {}⟩)] ∧
      (s.store [2]).writes.entries = [(2, ⟨.put, 1, some [8], {}⟩)] :=
    ⟨_, rfl, rfl, rfl⟩
  obtain ⟨s, hs, h₁, h₂⟩ := hrun
  have hreach := reachableWhen_of_run .start hs
  exact ⟨s, hreach, h₁, h₂, not_torn_of_noLatePrewrite _ hreach⟩

end TwoPhaseCommit
