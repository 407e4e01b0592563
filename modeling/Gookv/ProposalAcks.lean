/-
Which entry a successful callback belongs to.
-/
import Gookv.Proposals

namespace Proposals

open Raftstore Function List Proposals State StepSystem

variable {cl : Cluster} {s s' : State} {p : ℕ} {x : Peer}

abbrev Issue := ℕ × ℕ × ℕ

variable {I J : List Issue}

def Functional (I : List Issue) : Prop :=
  ∀ t id c c', (t, id, c) ∈ I → (t, id, c') ∈ I → c = c'

structure PendingOk (I : List Issue) (c : Pending) : Prop where
  issued : (c.term, c.id, c.cmd) ∈ I
  small : c.id < 2 ^ 56

structure Attributed (I : List Issue) (e : LogEntry) : Prop where
  own : ∀ c, e.origin = some c →
    e.entry.isData = true ∧ (e.entry.term, bigEndian e.entry.data, c) ∈ I
  admin : e.origin = none → isAdminEntry e.entry = true

variable {cs : List Pending} {e : LogEntry} {c : Pending} {id : UInt64}

theorem PendingOk.mono (h : PendingOk I c) (hsub : I ⊆ J) : PendingOk J c :=
  ⟨hsub h.issued, h.small⟩

theorem Attributed.mono (h : Attributed I e) (hsub : I ⊆ J) : Attributed J e :=
  ⟨fun c hc => ⟨(h.own c hc).1, hsub (h.own c hc).2⟩, h.admin⟩

theorem findCallback_eq_some {e : Entry} (h : findCallback cs e = some c) :
    c ∈ cs ∧ e.entryType = .normal ∧ 8 ≤ e.data.length ∧ c.id = bigEndian e.data := by
  obtain ⟨id, hid, hfind⟩ := Option.bind_eq_some_iff.mp h
  unfold proposalID at hid
  split at hid
  · cases hid
  · rename_i hkind
    rw [not_or, not_not, not_lt] at hkind
    split at hid
    · cases hid
    · cases hid
      have hc := find?_some hfind
      exact ⟨mem_of_find?_eq_some hfind, hkind.1, hkind.2, of_decide_eq_true hc⟩

theorem origin_of_findCallback (hI : Functional I)
    (he : Attributed I e) (hcs : ∀ c ∈ cs, PendingOk I c)
    (hfind : findCallback cs e.entry = some c) (hterm : e.entry.term = c.term) :
    e.origin = some c.cmd ∧ e.entry.isData = true := by
  obtain ⟨hmem, hnormal, hlen, hid⟩ := findCallback_eq_some hfind
  have hc := hcs c hmem
  cases horigin : e.origin with
  | some d =>
    obtain ⟨hdata, hissued⟩ := he.own d horigin
    rw [hterm, ← hid] at hissued
    rw [hI _ _ _ _ hissued hc.issued]
    exact ⟨rfl, hdata⟩
  | none =>
    -- an admin entry reads as a number that no callback has
    exfalso
    have hadmin := he.admin horigin
    have hne : e.entry.data.isEmpty = false := by
      rw [isEmpty_eq_false_iff]
      intro hnil
      rw [hnil, length_nil] at hlen
      omega
    have htag : isSplitAdmin e.entry.data = true ∨ isCompactLog e.entry.data = true := by
      simpa [isAdminEntry, hnormal, hne] using hadmin
    have hbig := le_bigEndian_of_admin hlen htag
    have hsmall := hc.small
    omega

theorem PendingOk.filter (hcs : ∀ c ∈ cs, PendingOk I c) (f : Pending → Bool) :
    ∀ c ∈ cs.filter f, PendingOk I c :=
  fun c hc => hcs c (mem_of_mem_filter hc)

theorem inlineCallbacks_ok {P : Ack → Prop} (es : List LogEntry)
    {acks : List Ack} (hcs : ∀ c ∈ cs, PendingOk I c) (hacks : ∀ a ∈ acks, P a)
    (hP : ∀ e ∈ es, ∀ cs' c, (∀ c ∈ cs', PendingOk I c) → findCallback cs' e.entry = some c →
      P (ackOf p c e)) : (∀ c ∈ (es.foldl (inlineCallback p) (cs, acks)).1, PendingOk I c) ∧
      ∀ a ∈ (es.foldl (inlineCallback p) (cs, acks)).2, P a := by
  induction es generalizing cs acks with
  | nil => exact ⟨hcs, hacks⟩
  | cons e es ih =>
    have hrest := fun e' he' => hP e' (mem_cons_of_mem _ he')
    rw [foldl_cons, inlineCallback]
    split
    · exact ih hcs hacks hrest
    · rename_i c hfind
      refine ih (PendingOk.filter hcs _) ?_ hrest
      intro a ha
      rcases mem_append.mp ha with ha | ha
      · exact hacks a ha
      · rw [mem_singleton.mp ha]
        exact hP e mem_cons_self cs c hcs hfind

theorem takeCallbacks_ok (es : List LogEntry) {taken : List Pending}
    (hcs : ∀ c ∈ cs, PendingOk I c) (htaken : ∀ c ∈ taken, PendingOk I c) :
    (∀ c ∈ (es.foldl takeCallback (cs, taken)).1, PendingOk I c) ∧
      ∀ c ∈ (es.foldl takeCallback (cs, taken)).2, PendingOk I c := by
  induction es generalizing cs taken with
  | nil => exact ⟨hcs, htaken⟩
  | cons e es ih =>
    rw [foldl_cons, takeCallback]
    split
    · exact ih hcs htaken
    · rename_i c hfind
      refine ih (PendingOk.filter hcs _) ?_
      intro c' hc'
      rcases mem_append.mp hc' with hc' | hc'
      · exact htaken c' hc'
      · rw [mem_singleton.mp hc']
        exact hcs c (findCallback_eq_some hfind).1

structure PeerInv (I : List Issue) (owner : ℕ → Option ℕ) (committed : List LogEntry) (p : ℕ)
    (x : Peer) : Prop where
  leads : x.raftLeader = true → owner x.raftTerm = some p
  below : x.raftLeader = true → ∀ i ∈ I, i.1 = x.raftTerm → i.2.1 < x.nextProposalID.toNat
  pending : ∀ c ∈ x.pendingProposals, PendingOk I c
  tasks : ∀ t ∈ x.tasks, (∀ c ∈ t.callbacks, PendingOk I c) ∧ ∀ e ∈ t.entries, e ∈ committed

structure Inv (s : State) (I : List Issue) : Prop where
  functional : Functional I
  owned : ∀ i ∈ I, s.owner i.1 ≠ none
  peers : ∀ p, PeerInv I s.owner s.committed p (s.peers p)
  network : ∀ e ∈ s.network, e.origin = none ∧ isAdminEntry e.entry = true
  appended : ∀ e ∈ s.appended, Attributed I e
  committed : ∀ e ∈ s.committed, Attributed I e
  acks : Honest s

theorem inv_start : Inv start [] where
  functional := fun _ _ _ _ h => absurd h not_mem_nil
  owned := fun _ h => absurd h not_mem_nil
  peers := fun _ =>
    { leads := fun h => absurd h Bool.false_ne_true
      below := fun h => absurd h Bool.false_ne_true
      pending := fun _ h => absurd h not_mem_nil
      tasks := fun _ h => absurd h not_mem_nil }
  network := fun _ h => absurd h not_mem_nil
  appended := fun _ h => absurd h not_mem_nil
  committed := fun _ h => absurd h not_mem_nil
  acks := fun _ h => absurd h not_mem_nil

theorem Honest.mono (h : Honest s) (hacks : s'.acks = s.acks) (hlog : s.committed ⊆ s'.committed)
    (happlied : ∀ q, (s.peers q).applied ⊆ (s'.peers q).applied) : Honest s' := by
  intro a ha hok
  obtain ⟨horigin, hmem, hindex⟩ := h a (hacks ▸ ha) hok
  exact ⟨horigin, hlog hmem, happlied a.peer hindex⟩

theorem applied_setPeer (happlied : (s.peers p).applied ⊆ x.applied) (q : ℕ) :
    (s.peers q).applied ⊆ ((s.setPeer p x).peers q).applied := by
  by_cases hq : q = p
  · subst hq
    simpa [setPeer] using happlied
  · simp [setPeer, update_of_ne hq]

variable {committed : List LogEntry} {owner : ℕ → Option ℕ}

theorem peerInv_setPeer (hall : ∀ q, q ≠ p → PeerInv I owner committed q (s.peers q))
    (hx : PeerInv I owner committed p x) (q : ℕ) :
    PeerInv I owner committed q ((s.setPeer p x).peers q) :=
  (forall_update_iff s.peers fun q y => PeerInv I owner committed q y).mpr ⟨hx, hall⟩ q

theorem Inv.setPeer (h : Inv s I) (hx : PeerInv I s.owner s.committed p x)
    (happlied : (s.peers p).applied ⊆ x.applied) : Inv (s.setPeer p x) I where
  functional := h.functional
  owned := h.owned
  peers := peerInv_setPeer (fun q _ => h.peers q) hx
  network := h.network
  appended := h.appended
  committed := h.committed
  acks := h.acks.mono rfl (List.Subset.refl _) (applied_setPeer happlied)

/-! ### Proposing -/

theorem isData_taggedEntry (hid : id.toNat < 2 ^ 56) (term c : ℕ) :
    (taggedEntry cl id term c).entry.isData = true := by
  have hhead : (putUint64 id ++ cl.request c).head? = some 0 := by
    rw [head?_append, head_putUint64 hid, Option.some_or]
  have hlen : 0 < (cl.request c).length := length_pos_iff.mpr (cl.request_ne c)
  have hlong : 8 < (putUint64 id).length + (cl.request c).length := by
    simp only [putUint64, length_cons, length_nil]
    omega
  simp [taggedEntry, Entry.isData, isSplitAdmin, isCompactLog, tagSplitAdmin, tagCompactLog, hhead,
    hlong]

theorem attributed_taggedEntry {term c : ℕ} (hid : id.toNat < 2 ^ 56)
    (hmem : (term, id.toNat, c) ∈ I) : Attributed I (taggedEntry cl id term c) where
  own c' hc' := by
    cases hc'
    exact ⟨isData_taggedEntry hid term c, by rw [taggedEntry, bigEndian_putUint64]; exact hmem⟩
  admin hnone := by cases hnone

def issue (s : State) (p c : ℕ) : Issue :=
  ((s.peers p).raftTerm, (s.peers p).nextProposalID.toNat, c)

theorem toNat_succ (hid : id.toNat < 2 ^ 56) : (id + 1).toNat = id.toNat + 1 := by
  rw [UInt64.toNat_add, UInt64.toNat_one]
  omega

section
variable (h : Inv s I)
include h

theorem Inv.functional_issue (hlead : (s.peers p).raftLeader = true) (c : ℕ) :
    Functional (issue s p c :: I) := by
  have hnew : ∀ t id c', (t, id, c') ∈ I → t = (s.peers p).raftTerm →
      id ≠ (s.peers p).nextProposalID.toNat := by
    intro t id c' hmem ht
    have hlt := (h.peers p).below hlead _ hmem ht
    exact ne_of_lt hlt
  intro t id c₁ c₂ h₁ h₂
  rcases mem_cons.mp h₁ with heq₁ | hold₁
  · rcases mem_cons.mp h₂ with heq₂ | hold₂
    · have heq := heq₁.trans heq₂.symm
      simpa using heq
    · simp only [issue, Prod.mk.injEq] at heq₁
      exact absurd heq₁.2.1 (hnew t id c₂ hold₂ heq₁.1)
  · rcases mem_cons.mp h₂ with heq₂ | hold₂
    · simp only [issue, Prod.mk.injEq] at heq₂
      exact absurd heq₂.2.1 (hnew t id c₁ hold₁ heq₂.1)
    · exact h.functional t id c₁ c₂ hold₁ hold₂

theorem Inv.peer_issue (hlead : (s.peers p).raftLeader = true) (c : ℕ) {q : ℕ}
    (hq : q ≠ p) : PeerInv (issue s p c :: I) s.owner s.committed q (s.peers q) where
  leads := (h.peers q).leads
  below hleadq i hi hterm := by
    rcases mem_cons.mp hi with rfl | hi
    · have hownp := (h.peers p).leads hlead
      have hownq := (h.peers q).leads hleadq
      have hterm : (s.peers p).raftTerm = (s.peers q).raftTerm := hterm
      rw [hterm, hownq] at hownp
      exact absurd (Option.some_inj.mp hownp) hq
    · exact (h.peers q).below hleadq i hi hterm
  pending c' hc' := ((h.peers q).pending c' hc').mono (subset_cons_self _ _)
  tasks t ht :=
    ⟨fun c' hc' => (((h.peers q).tasks t ht).1 c' hc').mono (subset_cons_self _ _),
      ((h.peers q).tasks t ht).2⟩

theorem Inv.propose {c : ℕ} (fate : Fate) (hlead : (s.peers p).raftLeader = true)
    (hterm : (s.peers p).currentTerm = (s.peers p).raftTerm)
    (hid : (s.peers p).nextProposalID.toNat < 2 ^ 56) : ∃ J, Inv (s.propose cl p c fate) J := by
  have hsub : I ⊆ issue s p c :: I := subset_cons_self _ _
  cases fate with
  | rejected =>
    refine ⟨I, h.setPeer ⟨(h.peers p).leads, ?_, (h.peers p).pending, (h.peers p).tasks⟩
      (List.Subset.refl _)⟩
    intro _ i hi ht
    have hlt := (h.peers p).below hlead i hi ht
    rw [toNat_succ hid]
    omega
  | accepted =>
    refine ⟨issue s p c :: I, ?_⟩
    simp only [State.propose, hlead, if_true]
    refine ⟨h.functional_issue hlead c, ?_, ?_, h.network, ?_, ?_, ?_⟩
    · intro i hi
      rcases List.mem_cons.mp hi with rfl | hi
      · have hown := (h.peers p).leads hlead
        exact fun hnone => absurd (hown.symm.trans hnone) (by simp)
      · exact h.owned i hi
    · refine peerInv_setPeer (fun q hq => h.peer_issue hlead c hq) ?_
      refine ⟨fun _ => (h.peers p).leads hlead, ?_, ?_, ?_⟩
      · intro _ i hi ht
        rw [toNat_succ hid]
        rcases List.mem_cons.mp hi with rfl | hi
        · exact Nat.lt_succ_self _
        · have hlt := (h.peers p).below hlead i hi ht
          omega
      · intro c' hc'
        rcases List.mem_cons.mp hc' with rfl | hc'
        · refine ⟨?_, hid⟩
          simp only [hterm]
          exact mem_cons_self
        · exact ((h.peers p).pending c' (mem_of_mem_filter hc')).mono hsub
      · intro t ht
        exact ⟨fun c' hc' => (((h.peers p).tasks t ht).1 c' hc').mono hsub,
          ((h.peers p).tasks t ht).2⟩
    · intro e he
      rcases List.mem_append.mp he with he | he
      · exact (h.appended e he).mono hsub
      · rw [List.mem_singleton.mp he]
        exact attributed_taggedEntry hid mem_cons_self
    · exact fun e he => (h.committed e he).mono hsub
    · exact h.acks.mono rfl (List.Subset.refl _) (applied_setPeer (List.Subset.refl _))

theorem Inv.append_admin (hnone : e.origin = none)
    (hadmin : isAdminEntry e.entry = true) (term : ℕ) :
    Inv { s with appended := s.appended ++ [⟨{ e.entry with term := term }, e.origin⟩] } I := by
  refine ⟨h.functional, h.owned, h.peers, h.network, ?_, h.committed, ?_⟩
  · intro e' he'
    rcases mem_append.mp he' with he' | he'
    · exact h.appended e' he'
    · rw [mem_singleton.mp he']
      refine ⟨fun c hc => ?_, fun _ => hadmin⟩
      rw [hnone] at hc
      cases hc
  · exact h.acks.mono rfl (Subset.refl _) fun _ => Subset.refl _

theorem Inv.forward_admin {e : Entry} (hadmin : isAdminEntry e = true) :
    Inv { s with network := s.network ++ [⟨e, none⟩] } I := by
  refine ⟨h.functional, h.owned, h.peers, ?_, h.appended, h.committed, ?_⟩
  · intro e' he'
    rcases mem_append.mp he' with he' | he'
    · exact h.network e' he'
    · rw [mem_singleton.mp he']
      exact ⟨rfl, hadmin⟩
  · exact h.acks.mono rfl (Subset.refl _) fun _ => Subset.refl _

theorem Inv.commit (he : e ∈ s.appended) (index : ℕ) :
    Inv { s with committed := s.committed ++ [⟨{ e.entry with index := index }, e.origin⟩] } I := by
  have hsub : s.committed ⊆ s.committed ++ [⟨{ e.entry with index := index }, e.origin⟩] :=
    subset_append_left _ _
  refine ⟨h.functional, h.owned, ?_, h.network, h.appended, ?_, ?_⟩
  · intro q
    have hq := h.peers q
    exact ⟨hq.leads, hq.below, hq.pending,
      fun t ht => ⟨(hq.tasks t ht).1, fun e' he' => hsub ((hq.tasks t ht).2 e' he')⟩⟩
  · intro e' he'
    rcases mem_append.mp he' with he' | he'
    · exact h.committed e' he'
    · rw [mem_singleton.mp he']
      exact ⟨(h.appended e he).own, (h.appended e he).admin⟩
  · exact h.acks.mono rfl hsub fun _ => Subset.refl _

theorem Inv.campaign {t : ℕ} (hfree : s.owner t = none) :
    Inv { s.setPeer p { s.peers p with raftTerm := t, raftLeader := true } with
      owner := Function.update s.owner t (some p) } I := by
  have hkeep : ∀ u, s.owner u ≠ none → update s.owner t (some p) u = s.owner u := by
    intro u hu
    refine update_of_ne ?_ _ _
    rintro rfl
    exact hu hfree
  refine ⟨h.functional, ?_, ?_, h.network, h.appended, h.committed, ?_⟩
  · intro i hi
    exact fun hnone => h.owned i hi ((hkeep i.1 (h.owned i hi)).symm.trans hnone)
  · refine peerInv_setPeer (fun q _ => ?_) ?_
    · have hq := h.peers q
      refine ⟨fun hlead => ?_, hq.below, hq.pending, hq.tasks⟩
      have hown := hq.leads hlead
      exact (hkeep _ (by rw [hown]; simp)).trans hown
    · refine ⟨fun _ => update_self _ _ _, ?_, (h.peers p).pending, (h.peers p).tasks⟩
      intro _ i hi hterm
      have hterm : i.1 = t := hterm
      exact absurd (hterm ▸ hfree) (h.owned i hi)
  · exact h.acks.mono rfl (Subset.refl _) (applied_setPeer (Subset.refl _))

theorem Inv.follower (hlead : x.raftLeader = false)
    (hpending : ∀ c ∈ x.pendingProposals, c ∈ (s.peers p).pendingProposals)
    (htasks : ∀ t ∈ x.tasks, t ∈ (s.peers p).tasks)
    (happlied : (s.peers p).applied ⊆ x.applied) : Inv (s.setPeer p x) I := by
  refine h.setPeer ⟨?_, ?_, ?_, ?_⟩ happlied
  · exact fun htrue => absurd (hlead.symm.trans htrue) (by simp)
  · exact fun htrue => absurd (hlead.symm.trans htrue) (by simp)
  · exact fun c hc => (h.peers p).pending c (hpending c hc)
  · exact fun t ht => (h.peers p).tasks t (htasks t ht)

/-! ### Committed entries come back -/

end

theorem mem_committed_of_batch {n : ℕ} (he : e ∈ s.batch p n) : e ∈ s.committed :=
  mem_of_mem_drop (mem_of_mem_take he)

theorem PeerInv.takeState (h : PeerInv I owner committed p x) (hardState : Bool) :
    PeerInv I owner committed p (x.takeState hardState) := by
  refine ⟨h.leads, h.below, ?_, h.tasks⟩
  intro c hc
  simp only [Peer.takeState] at hc
  split at hc
  · exact absurd hc not_mem_nil
  · exact h.pending c hc

theorem Inv.honest_ackOf (h : Inv s I) (he : e ∈ s.committed)
    (hcs : ∀ c ∈ cs, PendingOk I c) (hfind : findCallback cs e.entry = some c)
    {applied : List ℕ} (happlied : e.entry.isData = true → e.entry.index ∈ applied)
    (hok : (ackOf p c e).success = true) :
    e.origin = some c.cmd ∧ e ∈ s.committed ∧ e.entry.index ∈ applied := by
  have hterm : e.entry.term = c.term := by simpa [ackOf] using hok
  obtain ⟨horigin, hdata⟩ :=
    origin_of_findCallback h.functional (h.committed e he) hcs hfind hterm
  exact ⟨horigin, he, happlied hdata⟩

theorem Inv.handleReady (h : Inv s I) (p n : ℕ) (hardState : Bool) :
    Inv (s.handleReady cl p n hardState) I := by
  have hx := (h.peers p).takeState hardState
  unfold State.handleReady
  dsimp only
  split
  · split
    · exact h.setPeer ⟨hx.leads, hx.below, hx.pending, hx.tasks⟩ (List.Subset.refl _)
    · obtain ⟨hpending, htaken⟩ := takeCallbacks_ok (dataEntries (s.batch p n)) hx.pending
        fun c hc => absurd hc not_mem_nil
      refine h.setPeer ⟨hx.leads, hx.below, hpending, ?_⟩ (List.Subset.refl _)
      intro t ht
      rcases List.mem_append.mp ht with ht | ht
      · exact hx.tasks t ht
      · rw [List.mem_singleton.mp ht]
        exact ⟨htaken, fun e he => mem_committed_of_batch (mem_of_mem_filter he)⟩
  · -- the batch is in the engine before the callbacks are invoked
    set es := s.batch p n
    set x := (s.peers p).takeState hardState
    set x' : Peer := { x with
      delivered := x.delivered + es.length
      pendingProposals := (es.foldl (inlineCallback p) (x.pendingProposals, s.acks)).1
      applied := indices (dataEntries es) ++ x.applied } with hx'
    have hgrow : (s.peers p).applied ⊆ x'.applied := subset_append_right _ _
    have happlied : ∀ e ∈ es, e.entry.isData = true → e.entry.index ∈ x'.applied := by
      intro e he hdata
      refine mem_append_left _ (mem_map_of_mem (List.mem_filter.mpr ⟨he, hdata⟩))
    have hself : ((s.setPeer p x').peers p).applied = x'.applied := by simp [State.setPeer]
    have hold : ∀ a ∈ s.acks, a.success = true → a.entry.origin = some a.cmd ∧
        a.entry ∈ s.committed ∧ a.entry.entry.index ∈ ((s.setPeer p x').peers a.peer).applied := by
      intro a ha hok
      obtain ⟨horigin, hmem, hindex⟩ := h.acks a ha hok
      exact ⟨horigin, hmem, applied_setPeer hgrow a.peer hindex⟩
    obtain ⟨hpending, hacks⟩ := inlineCallbacks_ok (p := p) es hx.pending hold
        fun e he cs c hcs hfind hok => by
      have hhonest :=
        h.honest_ackOf (p := p) (mem_committed_of_batch he) hcs hfind (happlied e he) hok
      refine ⟨hhonest.1, hhonest.2.1, ?_⟩
      change e.entry.index ∈ ((s.setPeer p x').peers p).applied
      rw [hself]
      exact hhonest.2.2
    have hset := h.setPeer (x := x') ⟨hx.leads, hx.below, hpending, hx.tasks⟩ hgrow
    exact ⟨hset.functional, hset.owned, hset.peers, hset.network, hset.appended, hset.committed,
      hacks⟩

theorem Inv.processTask (h : Inv s I) {i : ℕ} {task : ApplyTask}
    (htask : (s.peers p).tasks[i]? = some task) : Inv (s.processTask p i task) I := by
  obtain ⟨hcallbacks, hentries⟩ := (h.peers p).tasks task (mem_of_getElem? htask)
  set x : Peer := { s.peers p with
    tasks := (s.peers p).tasks.eraseIdx i
    applied := indices task.entries ++ (s.peers p).applied } with hx
  have hgrow : (s.peers p).applied ⊆ x.applied := subset_append_right _ _
  have hpeer : PeerInv I s.owner s.committed p x :=
    ⟨(h.peers p).leads, (h.peers p).below, (h.peers p).pending,
      fun t ht => (h.peers p).tasks t (mem_of_mem_eraseIdx ht)⟩
  have hset := h.setPeer hpeer hgrow
  refine ⟨hset.functional, hset.owned, hset.peers, hset.network, hset.appended, hset.committed, ?_⟩
  intro a ha hok
  rcases List.mem_append.mp ha with ha | ha
  · exact hset.acks a ha hok
  · obtain ⟨e, he, hmap⟩ := List.mem_filterMap.mp ha
    obtain ⟨c, hfind, rfl⟩ := Option.map_eq_some_iff.mp hmap
    have happlied : e.entry.index ∈ x.applied := mem_append_left _ (mem_map_of_mem he)
    obtain ⟨horigin, hmem, hindex⟩ :=
      h.honest_ackOf (p := p) (hentries e he) hcallbacks hfind (fun _ => happlied) hok
    refine ⟨horigin, hmem, ?_⟩
    have hself : ((s.setPeer p x).peers p).applied = x.applied := by simp [State.setPeer]
    exact hself ▸ hindex

theorem Inv.step (h : Inv s I) {a : Action} (hC : LeaderProposes s a)
    (hs : step cl s a = some s') : ∃ J, Inv s' J := by
  cases a with
  | call p =>
    obtain ⟨-, rfl⟩ := of_guard hs
    have hp := h.peers p
    have hset := h.setPeer (p := p)
      (x := { s.peers p with mailbox := (s.peers p).mailbox ++ [s.nextCmd] })
      ⟨hp.leads, hp.below, hp.pending, hp.tasks⟩ (List.Subset.refl _)
    exact ⟨I, hset.functional, hset.owned, hset.peers, hset.network, hset.appended,
      hset.committed, hset.acks⟩
  | propose p fate =>
    obtain ⟨hlead, hterm, hid⟩ := hC
    simp only [Proposals.step] at hs
    split at hs
    · cases hs
    · cases hs
      exact h.propose fate hlead hterm hid
  | proposeAdmin p e =>
    simp only [Proposals.step] at hs
    split at hs
    · rename_i hadmin
      split at hs
      · cases hs
        exact ⟨I, h.append_admin (e := ⟨e, none⟩) rfl hadmin _⟩
      · cases hs
        exact ⟨I, h.forward_admin hadmin⟩
    · cases hs
  | receive p i =>
    simp only [Proposals.step] at hs
    split at hs
    · cases hs
    · rename_i e he
      split at hs
      · cases hs
        obtain ⟨hnone, hadmin⟩ := h.network e (mem_of_getElem? he)
        exact ⟨I, h.append_admin hnone hadmin _⟩
      · cases hs
  | campaign p t =>
    obtain ⟨hfree, rfl⟩ := of_guard hs
    exact ⟨I, h.campaign hfree.1⟩
  | stepDown p t =>
    obtain ⟨-, rfl⟩ := of_guard hs
    exact ⟨I, h.follower rfl (fun _ hc => hc) (fun _ ht => ht) (List.Subset.refl _)⟩
  | commit i =>
    simp only [Proposals.step] at hs
    split at hs
    · cases hs
    · rename_i e he
      cases hs
      exact ⟨I, h.commit (mem_of_getElem? he) _⟩
  | ready p n hardState =>
    cases hs
    exact ⟨I, h.handleReady p n hardState⟩
  | processTask p i =>
    simp only [Proposals.step] at hs
    split at hs
    · cases hs
    · rename_i task htask
      cases hs
      exact ⟨I, h.processTask htask⟩
  | restart p first =>
    cases hs
    exact ⟨I, h.follower rfl (fun _ hc => absurd hc not_mem_nil)
      (fun _ ht => absurd ht not_mem_nil) (List.Subset.refl _)⟩

/-- **Successful callbacks are honest** in a run whose commands are handled by
leaders that know their term. -/
theorem honest_of_leaderProposes (h : (system cl).ReachableWhen LeaderProposes s) : Honest s := by
  obtain ⟨I, hinv⟩ := h.invariant (P := fun s => ∃ I, Inv s I) ⟨[], inv_start⟩
    fun _ _ _ ⟨_, hinv⟩ hC hs => hinv.step hC hs
  exact hinv.acks

def inlineCluster : Cluster where
  request _ := [10]
  request_ne _ := by simp
  async _ := false

def ledRun : List Action :=
  [.campaign 1 2, .ready 1 0 false, .call 1, .propose 1 .accepted, .commit 0, .ready 1 1 false]

theorem honest_ledRun : ∃ s, (system inlineCluster).runWhen LeaderProposes start ledRun = some s ∧
      s.acks.map Ack.success = [true] ∧ Honest s := by
  obtain ⟨s, hs, hacks⟩ : ∃ s, (system inlineCluster).runWhen LeaderProposes start ledRun = some s ∧
      s.acks.map Ack.success = [true] := ⟨_, rfl, rfl⟩
  exact ⟨s, hs, hacks, honest_of_leaderProposes (reachableWhen_of_run .start hs)⟩

def collisionRun : List Action :=
  [.campaign 2 1, .ready 2 0 false, .call 2, .campaign 1 2, .stepDown 2 2, .ready 2 0 false,
    .ready 1 0 false, .call 1, .propose 1 .accepted, .propose 2 .accepted, .commit 0,
    .ready 2 1 false]

theorem dishonest_reachable : ∃ s, (system inlineCluster).Reachable s ∧
      (∃ a ∈ s.acks, a.success = true ∧ a.cmd = 0 ∧ a.entry.origin = some 1) ∧ ¬ Honest s := by
  obtain ⟨s, hs, a, ha, hok, hcmd, horigin⟩ :
      ∃ s, (system inlineCluster).runFrom start collisionRun = some s ∧
        ∃ a ∈ s.acks, a.success = true ∧ a.cmd = 0 ∧ a.entry.origin = some 1 :=
    ⟨_, rfl, _, mem_singleton_self _, rfl, rfl, rfl⟩
  refine ⟨s, reachable_of_run .start hs, ⟨a, ha, hok, hcmd, horigin⟩, fun hhonest => ?_⟩
  have hown := (hhonest a ha hok).1
  rw [horigin, hcmd] at hown
  exact absurd hown (by decide)

end Proposals
