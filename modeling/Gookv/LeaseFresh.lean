/-
Why a guarded lease read is fresh.
-/
import Gookv.LeaseRead

namespace LeaseRead

open Raftstore ApplyPipeline Function LeaseRead List Shared StepSystem

variable {log : CommittedLog} {members : List ℕ} {s s' : State} {g g' : Shared} {p q : ℕ}
  {x : Peer} {i t u : ℕ}

def HasTerm (log : CommittedLog) (g : Shared) (t : ℕ) : Prop :=
  ∃ i, 0 < i ∧ i ≤ g.chosen ∧ (log.entry i).term = t

/-! ### The invariant -/

structure RaftInv (log : CommittedLog) (g : Shared) (q : ℕ) (x : Peer) : Prop where
  leads : x.raftLeader = true → g.owner x.raftTerm = some q
  sent : x.raftLeader = true → x.raftTerm ∈ g.started →
    x.isLeader = true ∧ x.currentTerm = x.raftTerm
  commit_le : x.commit ≤ g.chosen
  learned : 0 < x.commit → g.owner x.commitTerm ≠ none ∧
    (log.entry x.commit).term ≤ x.commitTerm ∧ x.commitTerm ≤ x.raftTerm ∧
    ((x.commitTerm, x.commit) ∈ g.announced ∨ g.owner x.commitTerm = some q)

structure CacheInv (log : CommittedLog) (g : Shared) (q : ℕ) (x : Peer) : Prop where
  leader : x.isLeader = true → g.owner x.currentTerm = some q ∧ x.currentTerm ∈ g.started
  term_le : x.currentTerm ≤ x.raftTerm
  index_le : x.committedIndex ≤ x.commit
  index_known : 0 < x.committedIndex → ∃ u, (u, x.committedIndex) ∈ g.announced
  told : ∀ u n, g.owner u = some q → (u, n) ∈ g.announced →
    u ≤ x.currentTerm ∧ n ≤ x.committedIndex
  next_le : x.pipe.next ≤ x.committedIndex + 1
  pipe : ApplyPipeline.Inv (ApplyPipeline.freshBoot log.toLog) x.pipe

structure LeaseInv (log : CommittedLog) (members : List ℕ) (g : Shared) (q : ℕ) (x : Peer) :
    Prop where
  member : x.lease = true → q ∈ members
  newest : x.lease = true → x.isLeader = true → HasTerm log g x.currentTerm →
    ∀ w, x.currentTerm < w → g.owner w = none ∨ g.owner w = some q
  late : x.lease = true → x.isLeader = true →
    ∀ w, x.currentTerm < w → ∀ r, r ≠ q → g.owner w = some r → x.currentTerm ∉ g.inherited w

structure PeerInv (log : CommittedLog) (members : List ℕ) (g : Shared) (q : ℕ) (x : Peer) :
    Prop where
  raft : RaftInv log g q x
  cache : CacheInv log g q x
  lease : LeaseInv log members g q x

structure SharedInv (log : CommittedLog) (g : Shared) : Prop where
  max : ∀ u, g.owner u ≠ none → u ≤ g.maxTerm
  started : ∀ u ∈ g.started, g.owner u ≠ none
  inherited : ∀ w, ∀ u ∈ g.inherited w, u ∈ g.started
  chosen : ∀ i, 0 < i → i ≤ g.chosen → (log.entry i).term ∈ g.started
  announced : ∀ u n, (u, n) ∈ g.announced →
    n ≤ g.chosen ∧ g.owner u ≠ none ∧ (log.entry n).term ≤ u
  acked : ∀ i ∈ g.acked, ∃ u n, (u, n) ∈ g.announced ∧ i ≤ n

structure Inv (log : CommittedLog) (members : List ℕ) (s : State) : Prop where
  peers : ∀ q, PeerInv log members s.shared q (s.peers q)
  shared : SharedInv log s.shared
  fresh : Fresh log s

theorem inv_start (log : CommittedLog) (members : List ℕ) : Inv log members (start log) where
  peers _ :=
    { raft :=
        { leads := fun h => absurd h Bool.false_ne_true
          sent := fun h => absurd h Bool.false_ne_true
          commit_le := le_rfl
          learned := fun h => absurd h (lt_irrefl 0) }
      cache :=
        { leader := fun h => absurd h Bool.false_ne_true
          term_le := le_rfl
          index_le := le_rfl
          index_known := fun h => absurd h (lt_irrefl 0)
          told := fun _ _ _ h => absurd h List.not_mem_nil
          next_le := le_rfl
          pipe := ApplyPipeline.inv_start _ }
      lease :=
        { member := fun h => absurd h Bool.false_ne_true
          newest := fun h => absurd h Bool.false_ne_true
          late := fun h => absurd h Bool.false_ne_true } }
  shared :=
    { max := fun _ h => absurd rfl h
      started := fun _ h => absurd h List.not_mem_nil
      inherited := fun _ _ h => absurd h List.not_mem_nil
      chosen := fun _ hpos hle => absurd (hpos.trans_le hle) (lt_irrefl 0)
      announced := fun _ _ h => absurd h List.not_mem_nil
      acked := fun _ h => absurd h List.not_mem_nil }
  fresh := fun _ h => absurd h List.not_mem_nil

theorem peers_update {peers : ℕ → Peer}
    (hall : ∀ q, q ≠ p → PeerInv log members g q (peers q)) (hx : PeerInv log members g p x)
    (q : ℕ) : PeerInv log members g q (Function.update peers p x q) :=
  (forall_update_iff peers fun q y => PeerInv log members g q y).mpr ⟨hx, hall⟩ q

theorem PeerInv.bookkeeping (h : PeerInv log members g q x) (acked : List ℕ)
    (served : List (List ℕ × ApplyPipeline.State)) :
    PeerInv log members { g with acked, served } q x :=
  ⟨⟨h.raft.leads, h.raft.sent, h.raft.commit_le, h.raft.learned⟩,
    ⟨h.cache.leader, h.cache.term_le, h.cache.index_le, h.cache.index_known, h.cache.told,
      h.cache.next_le, h.cache.pipe⟩,
    ⟨h.lease.member, h.lease.newest, h.lease.late⟩⟩

theorem Inv.setPeer (h : Inv log members s) (hx : PeerInv log members s.shared p x) :
    Inv log members (s.setPeer p x) :=
  ⟨peers_update (fun q _ => h.peers q) hx, h.shared, h.fresh⟩

theorem Inv.le_committedIndex (h : Inv log members s) (hlease : (s.peers p).lease = true)
    (hlead : (s.peers p).isLeader = true) (hpos : 0 < (s.peers p).committedIndex)
    (hterm : (log.entry (s.peers p).committedIndex).term = (s.peers p).currentTerm)
    (hi : i ∈ s.shared.acked) : i ≤ (s.peers p).committedIndex := by
  have hp := h.peers p
  have hchosen : (s.peers p).committedIndex ≤ s.shared.chosen :=
    hp.cache.index_le.trans hp.raft.commit_le
  obtain ⟨u, n, hann, hin⟩ := h.shared.acked i hi
  obtain ⟨-, howned, hnterm⟩ := h.shared.announced u n hann
  rcases lt_trichotomy u (s.peers p).currentTerm with hlt | heq | hgt
  · -- made known in an earlier term: below the first entry of the leader's own term
    by_contra hnot
    have hmono := log.term_mono (s.peers p).committedIndex n (by omega)
    omega
  · -- made known in the leader's own term, by itself
    have hown := (hp.cache.leader hlead).1
    exact hin.trans (hp.cache.told u n (heq ▸ hown) hann).2
  · -- a later term has no other leader
    rcases hp.lease.newest hlease hlead ⟨_, hpos, hchosen, hterm⟩ u hgt with hnone | hself
    · exact absurd hnone howned
    · exact hin.trans (hp.cache.told u n hself hann).2

theorem Inv.readIndex (h : Inv log members s) (hpath : (s.peers p).leasePath = true)
    (hC : LeaseGuarded log s (.readIndex p)) : Inv log members ⟨s.peers, { s.shared with
      served := (s.shared.acked, (s.peers p).pipe) :: s.shared.served }⟩ := by
  obtain ⟨hpos, hterm⟩ := hC
  simp only [Peer.leasePath, Bool.and_eq_true, decide_eq_true_eq] at hpath
  obtain ⟨⟨hlead, hlease⟩, happlied⟩ := hpath
  refine ⟨fun q => ?_, ?_, ?_⟩
  · exact (h.peers q).bookkeeping _ _
  · have hg := h.shared
    exact ⟨hg.max, hg.started, hg.inherited, hg.chosen, hg.announced, hg.acked⟩
  · intro r hr i hi hdata
    rcases mem_cons.mp hr with rfl | hr
    · have hle := h.le_committedIndex hlease hlead hpos hterm hi
      exact (h.peers p).cache.pipe.truthful.applied i (hle.trans happlied) hdata
    · exact h.fresh r hr i hi hdata

theorem Inv.ack (h : Inv log members s) (hpos : 0 < i) (hi : i < (s.peers p).pipe.next) :
    Inv log members ⟨s.peers, { s.shared with acked := i :: s.shared.acked }⟩ := by
  refine ⟨fun q => ?_, ?_, h.fresh⟩
  · exact (h.peers q).bookkeeping _ _
  · have hg := h.shared
    refine ⟨hg.max, hg.started, hg.inherited, hg.chosen, hg.announced, ?_⟩
    intro j hj
    rcases mem_cons.mp hj with rfl | hj
    · have hnext := (h.peers p).cache.next_le
      obtain ⟨u, hu⟩ := (h.peers p).cache.index_known (by omega)
      exact ⟨u, _, hu, by omega⟩
    · exact hg.acked j hj

theorem PeerInv.stepDown (h : PeerInv log members g q x) (ht : x.raftTerm ≤ t) :
    PeerInv log members g q { x with raftTerm := t, raftLeader := false } where
  raft :=
    { leads := fun hfalse => absurd hfalse Bool.false_ne_true
      sent := fun hfalse => absurd hfalse Bool.false_ne_true
      commit_le := h.raft.commit_le
      learned := fun hpos =>
        have hl := h.raft.learned hpos
        ⟨hl.1, hl.2.1, hl.2.2.1.trans ht, hl.2.2.2⟩ }
  cache := ⟨h.cache.leader, h.cache.term_le.trans ht, h.cache.index_le, h.cache.index_known,
    h.cache.told, h.cache.next_le, h.cache.pipe⟩
  lease := ⟨h.lease.member, h.lease.newest, h.lease.late⟩

variable {rd : ApplyPipeline.Ready} {n : ℕ}

section
variable (h : PeerInv log members g q x)
include h

theorem PeerInv.learnCommit (hlt : x.commit < n)
    (hn : n ≤ g.chosen) (howned : g.owner x.raftTerm ≠ none)
    (hterm : (log.entry n).term ≤ x.raftTerm)
    (hfrom : (x.raftTerm, n) ∈ g.announced ∨ g.owner x.raftTerm = some q) :
    PeerInv log members g q { x with commit := n, commitTerm := x.raftTerm } where
  raft := ⟨h.raft.leads, h.raft.sent, hn, fun _ => ⟨howned, hterm, le_rfl, hfrom⟩⟩
  cache := ⟨h.cache.leader, h.cache.term_le, h.cache.index_le.trans hlt.le, h.cache.index_known,
    h.cache.told, h.cache.next_le, h.cache.pipe⟩
  lease := ⟨h.lease.member, h.lease.newest, h.lease.late⟩

theorem PeerInv.advance (hlead : x.raftLeader = true)
    (hlt : x.commit < n) (hn : n ≤ g.chosen) (hterm : (log.entry n).term = x.raftTerm) :
    PeerInv log members g q { x with commit := n, commitTerm := x.raftTerm } := by
  have hown := h.raft.leads hlead
  exact h.learnCommit hlt hn (by rw [hown]; simp) hterm.le (.inr hown)

theorem PeerInv.expire : PeerInv log members g q { x with lease := false } where
  raft := ⟨h.raft.leads, h.raft.sent, h.raft.commit_le, h.raft.learned⟩
  cache := ⟨h.cache.leader, h.cache.term_le, h.cache.index_le, h.cache.index_known, h.cache.told,
    h.cache.next_le, h.cache.pipe⟩
  lease :=
    { member := fun hfalse => absurd hfalse Bool.false_ne_true
      newest := fun hfalse => absurd hfalse Bool.false_ne_true
      late := fun hfalse => absurd hfalse Bool.false_ne_true }

theorem PeerInv.apply {a : ApplyPipeline.Action} {pipe : ApplyPipeline.State}
    (ha : isReady a = false)
    (hstep : ApplyPipeline.step log.toLog x.pipe a = some pipe) :
    PeerInv log members g q { x with pipe } := by
  have hne : ∀ rd, a ≠ .ready rd := by
    rintro rd rfl
    exact absurd ha (by simp [isReady])
  have hdrained : Drained (freshBoot log.toLog) x.pipe a := by
    cases a with
    | ready rd => exact absurd rfl (hne rd)
    | _ => exact trivial
  have hnext := next_step hne hstep
  refine ⟨⟨h.raft.leads, h.raft.sent, h.raft.commit_le, h.raft.learned⟩,
    ⟨h.cache.leader, h.cache.term_le, h.cache.index_le, h.cache.index_known, h.cache.told, ?_,
      h.cache.pipe.step hdrained hstep⟩,
    ⟨h.lease.member, h.lease.newest, h.lease.late⟩⟩
  rw [hnext]
  exact h.cache.next_le

end

theorem Inv.choose (h : Inv log members s) (hmay : s.MayChoose log p n) :
    Inv log members ⟨s.peers, { s.shared with chosen := n }⟩ := by
  obtain ⟨hlead, hcached, hcurrent, hmax, hlt, hnterm, hlog⟩ := hmay
  have hp := h.peers p
  have hown := hp.raft.leads hlead
  -- a newly committed entry is the leader's own or inherited
  have hnew : ∀ i, s.shared.chosen < i → i ≤ n → (log.entry i).term = (s.peers p).raftTerm ∨
      (log.entry i).term ∈ s.shared.inherited (s.peers p).raftTerm := by
    intro i hi hin
    exact hlog i (mem_range'_1.mpr ⟨by omega, by omega⟩)
  refine ⟨fun q => ?_, ?_, h.fresh⟩
  · have hq := h.peers q
    refine ⟨⟨hq.raft.leads, hq.raft.sent, hq.raft.commit_le.trans hlt.le, hq.raft.learned⟩,
      ⟨hq.cache.leader, hq.cache.term_le, hq.cache.index_le, hq.cache.index_known, hq.cache.told,
        hq.cache.next_le, hq.cache.pipe⟩, ⟨hq.lease.member, ?_, hq.lease.late⟩⟩
    rintro hlease hleadq ⟨i, hpos, hin, hterm⟩ w hw
    dsimp only at hin hterm hw
    by_cases hold : i ≤ s.shared.chosen
    · exact hq.lease.newest hlease hleadq ⟨i, hpos, hold, hterm⟩ w hw
    · by_cases heq : (s.peers q).currentTerm = (s.peers p).raftTerm
      · -- the newest term: no later one has a leader
        refine .inl ?_
        by_contra howned
        have := h.shared.max w howned
        omega
      · exfalso
        have hinh : (s.peers q).currentTerm ∈ s.shared.inherited (s.peers p).raftTerm := by
          rcases hnew i (by omega) hin with hown' | hinh
          · exact absurd (hterm.symm.trans hown') heq
          · exact hterm ▸ hinh
        have hmono := log.term_mono i n hin
        have hless : (s.peers q).currentTerm < (s.peers p).raftTerm := by omega
        have hne : p ≠ q := by
          rintro rfl
          omega
        exact hq.lease.late hlease hleadq _ hless p hne hown hinh
  · have hg := h.shared
    refine ⟨hg.max, hg.started, hg.inherited, ?_, ?_, hg.acked⟩
    · intro i hpos hin
      by_cases hold : i ≤ s.shared.chosen
      · exact hg.chosen i hpos hold
      · rcases hnew i (by omega) hin with hterm | hinh
        · rw [hterm, ← hcurrent]
          exact (hp.cache.leader hcached).2
        · exact hg.inherited _ _ hinh
    · intro u m hann
      obtain ⟨hm, howned, hterm⟩ := hg.announced u m hann
      exact ⟨hm.trans hlt.le, howned, hterm⟩

theorem Inv.campaign (h : Inv log members s) (hmay : s.MayCampaign members p t) :
    Inv log members
      ⟨Function.update s.peers p { s.peers p with raftTerm := t, raftLeader := true },
        s.shared.elect p t⟩ := by
  obtain ⟨hfree, hlt, hleases⟩ := hmay
  have hg := h.shared
  have hp := h.peers p
  have hne : ∀ u, s.shared.owner u ≠ none → u ≠ t := by
    rintro u hu rfl
    exact hu hfree
  have hkeep : ∀ u, u ≠ t → (s.shared.elect p t).owner u = s.shared.owner u :=
    fun u hu => update_of_ne hu _ _
  have hkeepSome : ∀ u r, s.shared.owner u = some r → (s.shared.elect p t).owner u = some r := by
    intro u r hu
    rw [hkeep u (hne u (by rw [hu]; simp)), hu]
  have hkeepOwned : ∀ u, s.shared.owner u ≠ none → (s.shared.elect p t).owner u ≠ none := by
    intro u hu
    rwa [hkeep u (hne u hu)]
  have hself : (s.shared.elect p t).owner t = some p := update_self _ _ _
  refine ⟨peers_update (fun q hqp => ?_) ?_, ?_, h.fresh⟩
  · have hq := h.peers q
    have hnolease : (s.peers q).lease ≠ true := by
      intro hlease
      rw [hleases q (hq.lease.member hlease) hqp] at hlease
      exact Bool.false_ne_true hlease
    refine ⟨⟨fun hl => hkeepSome _ _ (hq.raft.leads hl), hq.raft.sent, hq.raft.commit_le, ?_⟩,
      ⟨fun hl => ⟨hkeepSome _ _ (hq.cache.leader hl).1, (hq.cache.leader hl).2⟩,
        hq.cache.term_le, hq.cache.index_le, hq.cache.index_known, ?_, hq.cache.next_le,
        hq.cache.pipe⟩,
      ⟨fun hlease => absurd hlease hnolease, fun hlease => absurd hlease hnolease,
        fun hlease => absurd hlease hnolease⟩⟩
    · intro hpos
      obtain ⟨howned, hterm, hle, hfrom⟩ := hq.raft.learned hpos
      exact ⟨hkeepOwned _ howned, hterm, hle, hfrom.imp_right (hkeepSome _ _)⟩
    · intro u n hu hann
      refine hq.cache.told u n ?_ hann
      rw [← hu, hkeep u (hne u (hg.announced u n hann).2.1)]
  · refine ⟨⟨fun _ => hself, ?_, hp.raft.commit_le, ?_⟩,
      ⟨fun hl => ⟨hkeepSome _ _ (hp.cache.leader hl).1, (hp.cache.leader hl).2⟩,
        hp.cache.term_le.trans hlt.le, hp.cache.index_le, hp.cache.index_known, ?_,
        hp.cache.next_le, hp.cache.pipe⟩,
      ⟨hp.lease.member, ?_, ?_⟩⟩
    · exact fun _ hsent => absurd hfree (hg.started t hsent)
    · intro hpos
      obtain ⟨howned, hterm, hle, hfrom⟩ := hp.raft.learned hpos
      exact ⟨hkeepOwned _ howned, hterm, hle.trans hlt.le, hfrom.imp_right (hkeepSome _ _)⟩
    · intro u n hu hann
      refine hp.cache.told u n ?_ hann
      rw [← hu, hkeep u (hne u (hg.announced u n hann).2.1)]
    · intro hlease hlead hterm w hw
      by_cases hwt : w = t
      · exact .inr (hwt ▸ hself)
      · rw [hkeep w hwt]
        exact hp.lease.newest hlease hlead hterm w hw
    · intro hlease hlead w hw r hr howner
      by_cases hwt : w = t
      · rw [hwt, hself] at howner
        exact absurd (Option.some_inj.mp howner).symm hr
      · rw [hkeep w hwt] at howner
        have hinh : (s.shared.elect p t).inherited w = s.shared.inherited w :=
          update_of_ne hwt _ _
        rw [hinh]
        exact hp.lease.late hlease hlead w hw r hr howner
  · refine ⟨?_, fun u hu => hkeepOwned u (hg.started u hu), ?_, hg.chosen, ?_, hg.acked⟩
    · intro u hu
      by_cases hut : u = t
      · exact hut ▸ le_max_right _ _
      · rw [hkeep u hut] at hu
        exact (hg.max u hu).trans (le_max_left _ _)
    · intro w u hu
      by_cases hwt : w = t
      · subst hwt
        have hinh : (s.shared.elect p w).inherited w = s.shared.started.filter (· < w) :=
          update_self _ _ _
        rw [hinh] at hu
        exact mem_of_mem_filter hu
      · have hinh : (s.shared.elect p t).inherited w = s.shared.inherited w :=
          update_of_ne hwt _ _
        rw [hinh] at hu
        exact hg.inherited w u hu
    · intro u n hann
      obtain ⟨hn, howned, hterm⟩ := hg.announced u n hann
      exact ⟨hn, hkeepOwned u howned, hterm⟩

/-! ### Readys -/

theorem mem_afterReady (h : (u, n) ∈ (g.afterReady x).announced) :
    (u, n) ∈ g.announced ∨ (0 < x.commit ∧ u = x.commitTerm ∧ n = x.commit) := by
  simp only [afterReady] at h
  split at h
  · rename_i hpos
    rcases mem_cons.mp h with heq | hold
    · rw [Prod.mk.injEq] at heq
      exact .inr ⟨hpos, heq.1, heq.2⟩
    · exact .inl hold
  · exact .inl h

theorem announced_afterReady : g.announced ⊆ (g.afterReady x).announced := by
  simp only [afterReady]
  split
  · exact subset_cons_self _ _
  · exact Subset.refl _

theorem started_afterReady : g.started ⊆ (g.afterReady x).started := by
  simp only [afterReady]
  split
  · exact subset_cons_self _ _
  · exact Subset.refl _

theorem mem_started_afterReady (h : u ∈ (g.afterReady x).started) :
    u ∈ g.started ∨ (x.raftLeader = true ∧ u = x.raftTerm) := by
  simp only [afterReady] at h
  split at h
  · rename_i hlead
    rcases mem_cons.mp h with heq | hold
    · exact .inr ⟨hlead, heq⟩
    · exact .inl hold
  · exact .inl h

theorem PeerInv.otherReady (hq : PeerInv log members g q (s.peers q))
    (hp : PeerInv log members g p x) (hqp : q ≠ p) :
    PeerInv log members (g.afterReady x) q (s.peers q) := by
  refine ⟨⟨hq.raft.leads, ?_, hq.raft.commit_le, ?_⟩,
    ⟨fun hl => ⟨(hq.cache.leader hl).1, started_afterReady (hq.cache.leader hl).2⟩,
      hq.cache.term_le, hq.cache.index_le, ?_, ?_, hq.cache.next_le, hq.cache.pipe⟩,
    ⟨hq.lease.member, hq.lease.newest, hq.lease.late⟩⟩
  · intro hlead hsent
    rcases mem_started_afterReady hsent with hold | ⟨hleadp, heq⟩
    · exact hq.raft.sent hlead hold
    · have hownq := hq.raft.leads hlead
      rw [heq, hp.raft.leads hleadp] at hownq
      exact absurd (Option.some_inj.mp hownq).symm hqp
  · intro hpos
    obtain ⟨howned, hterm, hle, hfrom⟩ := hq.raft.learned hpos
    exact ⟨howned, hterm, hle, hfrom.imp_left fun hann => announced_afterReady hann⟩
  · intro hpos
    obtain ⟨u, hu⟩ := hq.cache.index_known hpos
    exact ⟨u, announced_afterReady hu⟩
  · intro u n hown hann
    rcases mem_afterReady hann with hold | ⟨hpos, rfl, rfl⟩
    · exact hq.cache.told u n hown hold
    · rcases (hp.raft.learned hpos).2.2.2 with hold | hself
      · exact hq.cache.told _ _ hown hold
      · have hsame : some p = some q := hself.symm.trans hown
        exact absurd (Option.some_inj.mp hsame).symm hqp

theorem leaseAfter_cases (hlease : x.leaseAfter rd = true)
    (hlead : x.isLeader = true) : rd.readStates ≠ [] ∨ x.lease = true := by
  by_cases hreads : rd.readStates = []
  · refine .inr ?_
    rw [Peer.leaseAfter, hreads, hlead] at hlease
    cases hraft : x.raftLeader with
    | true => simpa [hraft] using hlease
    | false =>
      rw [hraft] at hlease
      exact absurd hlease (by simp)
  · exact .inl hreads

theorem PeerInv.handleReady (hx : PeerInv log members g p x) (hg : SharedInv log g)
    (hmem : p ∈ members) (hnext : x.pipe.next + rd.count ≤ x.commit + 1)
    (hreads : rd.readStates ≠ [] → x.raftLeader = true ∧ x.raftTerm = g.maxTerm)
    (hdrained : ApplyPipeline.Drained (ApplyPipeline.freshBoot log.toLog) x.pipe (.ready rd)) :
    PeerInv log members (g.afterReady x) p (x.handleReady log rd) := by
  -- if anything of this term was sent before, the peer knew that it leads it
  have hcached : x.raftLeader = true → x.raftTerm ∈ g.started → x.leaseAfter rd = true →
      x.currentTerm = x.raftTerm ∧ x.isLeader = true ∧
        ((∀ w, x.raftTerm < w → g.owner w = none) ∨ x.lease = true) := by
    intro hlead hsent hlease
    obtain ⟨hisLeader, hterm⟩ := hx.raft.sent hlead hsent
    refine ⟨hterm, hisLeader, ?_⟩
    refine (leaseAfter_cases hlease hisLeader).imp_left fun hne w hw => ?_
    by_contra howned
    have := hg.max w howned
    have := (hreads hne).2
    omega
  refine ⟨⟨hx.raft.leads, fun hlead _ => ⟨hlead, rfl⟩, hx.raft.commit_le, ?_⟩,
    ⟨?_, le_rfl, le_rfl, ?_, ?_, ?_, hx.cache.pipe.handleReady _ hdrained⟩,
    ⟨fun _ => hmem, ?_, ?_⟩⟩
  · intro hpos
    obtain ⟨howned, hterm, hle, hfrom⟩ := hx.raft.learned hpos
    exact ⟨howned, hterm, hle, hfrom.imp_left fun hann => announced_afterReady hann⟩
  · intro hlead
    have hlead : x.raftLeader = true := hlead
    refine ⟨hx.raft.leads hlead, ?_⟩
    simp only [afterReady, hlead, if_true]
    exact mem_cons_self
  · intro hpos
    have hpos : 0 < x.commit := hpos
    refine ⟨x.commitTerm, ?_⟩
    simp only [afterReady, hpos, if_true]
    exact mem_cons_self
  · intro u n hown hann
    rcases mem_afterReady hann with hold | ⟨hpos, rfl, rfl⟩
    · obtain ⟨hu, hn⟩ := hx.cache.told u n hown hold
      exact ⟨hu.trans hx.cache.term_le, hn.trans hx.cache.index_le⟩
    · exact ⟨(hx.raft.learned hpos).2.2.1, le_rfl⟩
  · change (x.pipe.handleReady log.toLog _).next ≤ x.commit + 1
    rw [next_handleReady]
    exact hnext
  · rintro hlease hlead ⟨i, hpos, hle, hterm⟩ w hw
    have hterm : (log.entry i).term = x.raftTerm := hterm
    have hsent : x.raftTerm ∈ g.started := hterm ▸ hg.chosen i hpos hle
    obtain ⟨hcurrent, hisLeader, hnone | hold⟩ := hcached hlead hsent hlease
    · exact .inl (hnone w hw)
    · exact hx.lease.newest hold hisLeader ⟨i, hpos, hle, hterm.trans hcurrent.symm⟩ w
        (hcurrent ▸ hw)
  · intro hlease hlead w hw r hr howner hinh
    have hsent : x.raftTerm ∈ g.started := hg.inherited w _ hinh
    obtain ⟨hcurrent, hisLeader, hnone | hold⟩ := hcached hlead hsent hlease
    · rw [show (g.afterReady x).owner w = g.owner w from rfl, hnone w hw] at howner
      cases howner
    · exact hx.lease.late hold hisLeader w (hcurrent ▸ hw) r hr howner (hcurrent ▸ hinh)

theorem SharedInv.afterReady (hg : SharedInv log g) (hx : PeerInv log members g p x) :
    SharedInv log (g.afterReady x) := by
  refine ⟨hg.max, ?_, fun w u hu => started_afterReady (hg.inherited w u hu),
    fun i hpos hle => started_afterReady (hg.chosen i hpos hle), ?_, ?_⟩
  · intro u hu
    rcases mem_started_afterReady hu with hold | ⟨hlead, rfl⟩
    · exact hg.started u hold
    · exact fun hnone => absurd ((hx.raft.leads hlead).symm.trans hnone) (by simp)
  · intro u n hann
    rcases mem_afterReady hann with hold | ⟨hpos, rfl, rfl⟩
    · exact hg.announced u n hold
    · obtain ⟨howned, hterm, -, -⟩ := hx.raft.learned hpos
      exact ⟨hx.raft.commit_le, howned, hterm⟩
  · intro i hi
    obtain ⟨u, n, hann, hin⟩ := hg.acked i hi
    exact ⟨u, n, announced_afterReady hann, hin⟩

theorem Inv.ready (h : Inv log members s)
    (hmay : s.MayReady members p rd) (hC : LeaseGuarded log s (.ready p rd)) :
    Inv log members ⟨Function.update s.peers p ((s.peers p).handleReady log rd),
      s.shared.afterReady (s.peers p)⟩ := by
  obtain ⟨hmem, hnext, hreads⟩ := hmay
  have hp := h.peers p
  exact ⟨peers_update (fun q hqp => (h.peers q).otherReady hp hqp)
    (hp.handleReady h.shared hmem hnext hreads hC), h.shared.afterReady hp, h.fresh⟩

theorem Inv.step (h : Inv log members s) {a : Action} (hC : LeaseGuarded log s a)
    (hs : step log members s a = some s') : Inv log members s' := by
  cases a with
  | campaign p t =>
    obtain ⟨hmay, rfl⟩ := of_guard hs
    exact h.campaign hmay
  | stepDown p t =>
    obtain ⟨ht, rfl⟩ := of_guard hs
    exact h.setPeer ((h.peers p).stepDown ht)
  | choose p n =>
    obtain ⟨hmay, rfl⟩ := of_guard hs
    exact h.choose hmay
  | advance p n =>
    obtain ⟨hmay, rfl⟩ := of_guard hs
    obtain ⟨hlead, hlt, hn, hterm⟩ := hmay
    exact h.setPeer ((h.peers p).advance hlead hlt hn hterm)
  | learn p n =>
    obtain ⟨hmay, rfl⟩ := of_guard hs
    obtain ⟨-, hlt, hann⟩ := hmay
    obtain ⟨hn, howned, hterm⟩ := h.shared.announced _ n hann
    exact h.setPeer ((h.peers p).learnCommit hlt hn howned hterm (.inl hann))
  | ready p rd =>
    obtain ⟨hmay, rfl⟩ := of_guard hs
    exact h.ready hmay hC
  | apply p a =>
    simp only [LeaseRead.step] at hs
    split at hs
    · cases hs
    · rename_i ha
      obtain ⟨pipe, hpipe, rfl⟩ := Option.map_eq_some_iff.mp hs
      exact h.setPeer ((h.peers p).apply (by simpa using ha) hpipe)
  | ack p i =>
    obtain ⟨hmay, rfl⟩ := of_guard hs
    exact h.ack hmay.2 hmay.1
  | expire p =>
    cases hs
    exact h.setPeer (h.peers p).expire
  | readIndex p =>
    obtain ⟨hpath, rfl⟩ := of_guard hs
    exact h.readIndex hpath hC

/-- **Lease reads are fresh** in a run whose lease reads are made with a commit index
of the leader's own term. -/
theorem fresh_of_leaseGuarded (h : (system log members).ReachableWhen (LeaseGuarded log) s) :
    Fresh log s :=
  (h.invariant (P := Inv log members) (inv_start log members)
    fun _ _ _ hinv hC hs => hinv.step hC hs).fresh

def twoTermLog : CommittedLog where
  entry i := ⟨.normal, if i ≤ 2 then 1 else 2, i, if i = 2 then [0, 0, 0, 0, 0, 0, 0, 1, 10] else []⟩
  index_eq _ := rfl
  term_mono i j hij := by
    dsimp only
    split <;> split <;> omega

def electionRun : List Action :=
  [.campaign 1 1, .ready 1 ⟨0, none, []⟩, .choose 1 2, .advance 1 2, .ready 1 ⟨2, none, []⟩,
    .apply 1 .applyTask, .apply 1 .sendResult, .apply 1 .applyResult, .ack 1 2, .expire 1,
    .stepDown 1 2, .campaign 2 2, .ready 2 ⟨0, none, []⟩]

def guardedRun : List Action :=
  electionRun ++ [.choose 2 3, .advance 2 3, .ready 2 ⟨3, none, []⟩, .apply 2 .applyTask,
    .apply 2 .sendResult, .apply 2 .applyResult, .readIndex 2]

theorem fresh_guardedRun :
    ∃ s, (system twoTermLog [1, 2]).runWhen (LeaseGuarded twoTermLog) (start twoTermLog)
      guardedRun = some s ∧ s.shared.served.map Prod.fst = [[2]] ∧ Fresh twoTermLog s := by
  obtain ⟨s, hs, hserved⟩ : ∃ s, (system twoTermLog [1, 2]).runWhen (LeaseGuarded twoTermLog)
      (start twoTermLog) guardedRun = some s ∧ s.shared.served.map Prod.fst = [[2]] :=
    ⟨_, rfl, rfl⟩
  exact ⟨s, hs, hserved, fresh_of_leaseGuarded (reachableWhen_of_run .start hs)⟩

theorem stale_reachable :
    ∃ s, (system twoTermLog [1, 2]).Reachable s ∧ (s.peers 1).raftLeader = false ∧
      ¬ Fresh twoTermLog s := by
  obtain ⟨s, hs, hlead, r, hr, hacked, hnot⟩ :
      ∃ s, (system twoTermLog [1, 2]).runFrom (start twoTermLog) (electionRun ++ [.readIndex 2]) =
        some s ∧ (s.peers 1).raftLeader = false ∧ ∃ r ∈ s.shared.served, 2 ∈ r.1 ∧
          ¬ Applied (freshBoot twoTermLog.toLog) r.2 2 :=
    ⟨_, rfl, rfl, _, mem_singleton_self _, by decide, by decide⟩
  refine ⟨s, reachable_of_run .start hs, hlead, fun hfresh => ?_⟩
  exact hnot (hfresh r hr 2 hacked (by decide))

end LeaseRead
