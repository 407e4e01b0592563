/-
The terms at the boundaries of a region's log: `onRaftLogGCTick` and the forced compaction
of split-created regions in `internal/raftstore/peer.go`, `RequestSnapshot` of
`snapshot.go`, `CreatePeer` of `internal/server/coordinator.go`.
-/
import Gookv.StepSystem
import Gookv.RaftEntry

namespace BoundaryTerms

open Raftstore List Option StepSystem

structure GCConfig where
  countLimit : ℕ
  sizeLimit : ℕ
  threshold : ℕ
  deriving DecidableEq

/-- The index that `onRaftLogGCTick` compacts to; `followers` are the match indices. -/
def gcCompactIndex (cfg : GCConfig) (firstIdx appliedIdx lastCompactedIdx sizeHint : ℕ)
    (followers : List ℕ) : Option ℕ :=
  if appliedIdx ≤ firstIdx then none
  else
    let excessCount := appliedIdx - firstIdx
    if excessCount < cfg.countLimit ∧ sizeHint < cfg.sizeLimit then none
    else if appliedIdx < 2 then none
    else
      let compactIdx := min (followers.foldl min appliedIdx) (appliedIdx - 1)
      let compactIdx :=
        if firstIdx + cfg.threshold < compactIdx then some compactIdx
        else if cfg.countLimit * 3 ≤ excessCount then some (appliedIdx - 1)
        else none
      compactIdx.filter fun i => lastCompactedIdx < i

structure SnapKey where
  index : ℕ
  term : ℕ
  deriving DecidableEq

def snapKey (st : ApplyState) : SnapKey := ⟨st.appliedIndex, st.truncatedTerm⟩

def splitCompactRequest (st : ApplyState) : CompactLogRequest := ⟨st.appliedIndex, 1⟩

/-! ### The peers of a region -/

structure LogEntry where
  term : ℕ
  compact : Option CompactLogRequest := none
  deriving DecidableEq

structure Peer where
  delivered : ℕ := 0
  applyState : ApplyState
  persisted : ApplyState
  splitOrigin : Bool := false
  splitCompactDone : Bool := false
  deriving DecidableEq

structure State where
  log : List LogEntry
  peers : ℕ → Option Peer
  proposed : List CompactLogRequest
  snapshots : List SnapKey

structure Origin where
  voters : ℕ
  hasStartKey : Bool
  voters_pos : 0 < voters

inductive PeerAction
  | handleReady (count : ℕ)
  | setAppliedIndex (index : ℕ)
  | onRaftLogGCTick (cfg : GCConfig) (lastCompactedIdx sizeHint : ℕ) (followers : List ℕ)
  | splitCompact
  | requestSnapshot
  | applySnapshot (snap : SnapKey)
  | restart
  deriving DecidableEq

inductive Action
  | commit (e : LogEntry)
  | bootstrapRegion (id : ℕ)
  | createPeer (id : ℕ)
  | peer (id : ℕ) (a : PeerAction)
  deriving DecidableEq

def termAt (log : List LogEntry) (i : ℕ) : Option ℕ :=
  if i = 0 then none else (log[i - 1]?).map LogEntry.term

def Peer.term (p : Peer) (log : List LogEntry) (i : ℕ) : Option ℕ :=
  if i = p.applyState.truncatedIndex then some p.applyState.truncatedTerm
  else if i < p.applyState.truncatedIndex + 1 then none
  else termAt log i

def Peer.applyCompactLogEntry (p : Peer) (e : LogEntry) : Peer :=
  match e.compact with
  | none => p
  | some req =>
    match execCompactLog p.applyState req with
    | .ok (some st) => { p with applyState := st, persisted := st }
    | _ => p

def Peer.new (o : Origin) (st : ApplyState) : Peer :=
  { applyState := st, persisted := st, splitOrigin := o.hasStartKey }

def createdState (o : Origin) : ApplyState := if o.hasStartKey then ⟨0, 1, 1⟩ else ⟨0, 0, 0⟩

def Peer.handleReady (p : Peer) (log : List LogEntry) (count : ℕ) : Peer :=
  let p := ((log.drop p.delivered).take count).foldl Peer.applyCompactLogEntry p
  { p with delivered := p.delivered + count }

def Peer.setAppliedIndex (p : Peer) (index : ℕ) : Peer :=
  let st := { p.applyState with appliedIndex := index }
  { p with applyState := st, persisted := st }

def Peer.applySnapshot (p : Peer) (snap : SnapKey) : Peer :=
  if snap.index ≤ p.applyState.truncatedIndex then p
  else { p with applyState := ⟨snap.index, snap.index, snap.term⟩, delivered := snap.index }

def Peer.restart (p : Peer) : Peer :=
  { delivered := p.persisted.truncatedIndex
    applyState := p.persisted
    persisted := p.persisted }

def State.setPeer (s : State) (id : ℕ) (p : Peer) : State :=
  { s with peers := Function.update s.peers id (some p) }

def peerStep (s : State) (id : ℕ) (p : Peer) : PeerAction → Option State
  | .handleReady count =>
    if p.delivered + count ≤ s.log.length then some (s.setPeer id (p.handleReady s.log count))
    else none
  | .setAppliedIndex index =>
    if index ≤ p.delivered then some (s.setPeer id (p.setAppliedIndex index)) else none
  | .onRaftLogGCTick cfg lastCompactedIdx sizeHint followers =>
    let compactIdx := gcCompactIndex cfg (p.applyState.truncatedIndex + 1)
      p.applyState.appliedIndex lastCompactedIdx sizeHint followers
    match compactIdx.bind fun i => (p.term s.log i).map fun t => CompactLogRequest.mk i t with
    | none => some s
    | some req => some { s with proposed := s.proposed ++ [req] }
  | .splitCompact =>
    if p.splitOrigin ∧ ¬ p.splitCompactDone ∧ 1 ≤ p.applyState.appliedIndex then
      some ({ s with proposed := s.proposed ++ [splitCompactRequest p.applyState] }.setPeer id
        { p with splitCompactDone := true })
    else none
  | .requestSnapshot => some { s with snapshots := s.snapshots ++ [snapKey p.applyState] }
  | .applySnapshot snap =>
    if snap ∈ s.snapshots ∧ p.delivered < snap.index then
      some (s.setPeer id (p.applySnapshot snap))
    else none
  | .restart => some (s.setPeer id p.restart)

def step (o : Origin) (s : State) : Action → Option State
  | .commit e =>
    if ∀ req ∈ e.compact, req ∈ s.proposed then some { s with log := s.log ++ [e] } else none
  | .bootstrapRegion id =>
    if s.peers id = none then some (s.setPeer id (Peer.new o ⟨0, 0, 0⟩)) else none
  | .createPeer id =>
    if s.peers id = none then some (s.setPeer id (Peer.new o (createdState o))) else none
  | .peer id a => (s.peers id).bind fun p => peerStep s id p a

def start (o : Origin) : State := ⟨List.replicate o.voters ⟨1, none⟩, fun _ => none, [], []⟩

def system (o : Origin) : StepSystem State Action := ⟨start o, step o⟩

open Peer

def TrueTerm (log : List LogEntry) (index term : ℕ) : Prop :=
  0 < index → termAt log index = some term

structure TrueTerms (s : State) : Prop where
  truncated : ∀ id p, s.peers id = some p →
    TrueTerm s.log p.applyState.truncatedIndex p.applyState.truncatedTerm
  snapshots : ∀ snap ∈ s.snapshots, TrueTerm s.log snap.index snap.term

def Agreeing (s : State) : Action → Prop
  | .peer id .splitCompact => ∀ p ∈ s.peers id, termAt s.log p.applyState.appliedIndex = some 1
  | .peer id .requestSnapshot => ∀ p ∈ s.peers id, p.applyState.appliedIndex ≠ 0 →
      p.applyState.truncatedIndex ≠ 0 ∧
      termAt s.log p.applyState.appliedIndex = termAt s.log p.applyState.truncatedIndex
  | _ => True

variable {log : List LogEntry} {index term : ℕ}

theorem termAt_append (h : termAt log index = some term) (l : List LogEntry) :
    termAt (log ++ l) index = some term := by
  unfold termAt at h ⊢
  split
  · rename_i hzero
    rw [if_pos hzero] at h
    cases h
  · rename_i hpos
    rw [if_neg hpos, Option.map_eq_some_iff] at h
    obtain ⟨e, he, rfl⟩ := h
    have hlt : index - 1 < log.length := (List.getElem?_eq_some_iff.mp he).1
    rw [List.getElem?_append_left hlt, he]
    rfl

theorem TrueTerm.append (h : TrueTerm log index term) (l : List LogEntry) :
    TrueTerm (log ++ l) index term := fun hpos => termAt_append (h hpos) l

theorem trueTerm_of_termAt (h : termAt log index = some term) : TrueTerm log index term :=
  fun _ => h

structure Sound (log : List LogEntry) (p : Peer) : Prop where
  memory : TrueTerm log p.applyState.truncatedIndex p.applyState.truncatedTerm
  disk : TrueTerm log p.persisted.truncatedIndex p.persisted.truncatedTerm

variable {p : Peer} {s : State} {req : CompactLogRequest}

theorem Sound.append (h : Sound log p) (l : List LogEntry) : Sound (log ++ l) p :=
  ⟨h.memory.append l, h.disk.append l⟩

structure Inv (s : State) : Prop where
  peers : ∀ id p, s.peers id = some p → Sound s.log p
  proposed : ∀ req ∈ s.proposed, TrueTerm s.log req.compactIndex req.compactTerm
  committed : ∀ e ∈ s.log, ∀ req ∈ e.compact, TrueTerm s.log req.compactIndex req.compactTerm
  snapshots : ∀ snap ∈ s.snapshots, TrueTerm s.log snap.index snap.term
  first : termAt s.log 1 = some 1

theorem Inv.trueTerms (h : Inv s) : TrueTerms s :=
  ⟨fun id p hp => (h.peers id p hp).memory, h.snapshots⟩

theorem truncated_of_execCompactLog {st st' : ApplyState}
    (h : execCompactLog st req = .ok (some st')) :
    st'.truncatedIndex = req.compactIndex ∧ st'.truncatedTerm = req.compactTerm := by
  unfold execCompactLog at h
  split at h
  · cases h
  · split at h
    · cases h
    · split at h
      · cases h
      · cases h
        exact ⟨rfl, rfl⟩

theorem Sound.applyCompactLogEntry {e : LogEntry} (h : Sound log p)
    (he : ∀ req ∈ e.compact, TrueTerm log req.compactIndex req.compactTerm) :
    Sound log (p.applyCompactLogEntry e) := by
  unfold Peer.applyCompactLogEntry
  split
  · exact h
  · rename_i req hreq
    split
    · rename_i st hexec
      obtain ⟨hindex, hterm⟩ := truncated_of_execCompactLog hexec
      have htrue : TrueTerm log st.truncatedIndex st.truncatedTerm := by
        rw [hindex, hterm]
        exact he req hreq
      exact ⟨htrue, htrue⟩
    · exact h

theorem Sound.handleReady (h : Sound log p)
    (hlog : ∀ e ∈ log, ∀ req ∈ e.compact, TrueTerm log req.compactIndex req.compactTerm)
    (count : ℕ) : Sound log (p.handleReady log count) := by
  -- along the entries of the batch
  have hfold : ∀ (es : List LogEntry), (∀ e ∈ es, e ∈ log) → ∀ p, Sound log p →
      Sound log (es.foldl Peer.applyCompactLogEntry p) := by
    intro es
    induction es with
    | nil =>
      intro _ p hp
      exact hp
    | cons e es ih =>
      intro hes p hp
      exact ih (fun e' he' => hes e' (List.mem_cons_of_mem e he')) _
        (hp.applyCompactLogEntry (hlog e (hes e List.mem_cons_self)))
  have hp := hfold ((log.drop p.delivered).take count)
    (fun e he => List.mem_of_mem_drop (List.mem_of_mem_take he)) p h
  exact ⟨hp.memory, hp.disk⟩

/-! ### Steps -/

theorem Inv.setPeer (h : Inv s) {id : ℕ} (hp : Sound s.log p) : Inv (s.setPeer id p) := by
  refine ⟨?_, h.proposed, h.committed, h.snapshots, h.first⟩
  intro id' p' hp'
  change Function.update s.peers id (some p) id' = some p' at hp'
  by_cases hid : id' = id
  · subst hid
    rw [Function.update_self, some_inj] at hp'
    exact hp' ▸ hp
  · rw [Function.update_of_ne hid] at hp'
    exact h.peers id' p' hp'

theorem Inv.propose (h : Inv s)
    (hreq : TrueTerm s.log req.compactIndex req.compactTerm) :
    Inv { s with proposed := s.proposed ++ [req] } := by
  refine ⟨h.peers, ?_, h.committed, h.snapshots, h.first⟩
  intro req' hmem
  rcases mem_append.mp hmem with hmem | hmem
  · exact h.proposed req' hmem
  · rw [mem_singleton.mp hmem]
    exact hreq

theorem Inv.commit (h : Inv s) {e : LogEntry}
    (he : ∀ req ∈ e.compact, req ∈ s.proposed) : Inv { s with log := s.log ++ [e] } := by
  refine ⟨?_, ?_, ?_, ?_, termAt_append h.first [e]⟩
  · intro id p hp
    exact (h.peers id p hp).append [e]
  · intro req hreq
    exact (h.proposed req hreq).append [e]
  · intro e' he' req hreq
    rcases mem_append.mp he' with he' | he'
    · exact (h.committed e' he' req hreq).append [e]
    · rw [mem_singleton.mp he'] at hreq
      exact (h.proposed req (he req hreq)).append [e]
  · intro snap hsnap
    exact (h.snapshots snap hsnap).append [e]

theorem inv_start (o : Origin) : Inv (start o) := by
  refine ⟨?_, ?_, ?_, ?_, ?_⟩
  · intro id p hp
    cases hp
  · intro req hreq
    cases hreq
  · intro e he req hreq
    rw [(mem_replicate.mp he).2] at hreq
    cases hreq
  · intro snap hsnap
    cases hsnap
  · obtain ⟨n, hn⟩ := Nat.exists_eq_succ_of_ne_zero o.voters_pos.ne'
    show termAt (replicate o.voters ⟨1, none⟩) 1 = some 1
    rw [hn]
    rfl

theorem Sound.trueTerm (h : Sound log p) (hterm : p.term log index = some term) :
    TrueTerm log index term := by
  unfold Peer.term at hterm
  split at hterm
  · rename_i heq
    cases hterm
    rw [heq]
    exact h.memory
  · split at hterm
    · cases hterm
    · exact trueTerm_of_termAt hterm

theorem Inv.peerStep {s' : State} {id : ℕ} {a : PeerAction} (h : Inv s)
    (hp : s.peers id = some p) (hagree : Agreeing s (.peer id a))
    (hstep : peerStep s id p a = some s') : Inv s' := by
  have hsound := h.peers id p hp
  cases a with
  | handleReady count =>
    obtain ⟨-, rfl⟩ := of_guard hstep
    exact h.setPeer (hsound.handleReady h.committed count)
  | setAppliedIndex index =>
    obtain ⟨-, rfl⟩ := of_guard hstep
    exact h.setPeer ⟨hsound.memory, hsound.memory⟩
  | onRaftLogGCTick cfg lastCompactedIdx sizeHint followers =>
    dsimp only [BoundaryTerms.peerStep] at hstep
    split at hstep
    · cases hstep
      exact h
    · rename_i req hreq
      cases hstep
      -- this compaction reads the term of its index from the storage
      obtain ⟨i, -, hi⟩ := bind_eq_some_iff.mp hreq
      obtain ⟨t, ht, rfl⟩ := map_eq_some_iff.mp hi
      exact h.propose (hsound.trueTerm ht)
  | splitCompact =>
    obtain ⟨-, rfl⟩ := of_guard hstep
    have hone : termAt s.log p.applyState.appliedIndex = some 1 := hagree p hp
    have hprop : Inv { s with proposed := s.proposed ++ [splitCompactRequest p.applyState] } :=
      h.propose (trueTerm_of_termAt hone)
    exact hprop.setPeer ⟨hsound.memory, hsound.disk⟩
  | requestSnapshot =>
    cases hstep
    -- the applied index with the term of the truncated index
    have htrue : TrueTerm s.log p.applyState.appliedIndex p.applyState.truncatedTerm := by
      intro hpos
      obtain ⟨htrunc, hsame⟩ := hagree p hp hpos.ne'
      rw [hsame]
      exact hsound.memory (Nat.pos_of_ne_zero htrunc)
    refine ⟨h.peers, h.proposed, h.committed, ?_, h.first⟩
    intro snap hsnap
    rcases mem_append.mp hsnap with hsnap | hsnap
    · exact h.snapshots snap hsnap
    · rw [mem_singleton.mp hsnap]
      exact htrue
  | applySnapshot snap =>
    obtain ⟨⟨hsnap, -⟩, rfl⟩ := of_guard hstep
    apply h.setPeer
    unfold applySnapshot
    split
    · exact hsound
    · exact ⟨h.snapshots snap hsnap, hsound.disk⟩
  | restart =>
    cases hstep
    exact h.setPeer ⟨hsound.disk, hsound.disk⟩

theorem Inv.step {o : Origin} {s' : State} {a : Action} (h : Inv s) (hagree : Agreeing s a)
    (hstep : step o s a = some s') : Inv s' := by
  have hzero : ∀ t, TrueTerm s.log 0 t := fun t hpos => absurd hpos (lt_irrefl 0)
  cases a with
  | commit e =>
    obtain ⟨hguard, rfl⟩ := of_guard hstep
    exact h.commit hguard
  | bootstrapRegion id =>
    obtain ⟨-, rfl⟩ := of_guard hstep
    exact h.setPeer ⟨hzero 0, hzero 0⟩
  | createPeer id =>
    obtain ⟨-, rfl⟩ := of_guard hstep
    -- the first entry is one of the bootstrap
    have htrue : TrueTerm s.log (createdState o).truncatedIndex (createdState o).truncatedTerm := by
      unfold createdState
      split
      · exact fun _ => h.first
      · exact hzero 0
    exact h.setPeer ⟨htrue, htrue⟩
  | peer id a =>
    obtain ⟨p, hp, hstep⟩ := bind_eq_some_iff.mp hstep
    exact h.peerStep hp hagree hstep

/-- **Boundary terms are true** in every run in which they are taken from entries of the
right term. -/
theorem trueTerms_of_agreeing (o : Origin) {s : State} (h : (system o).ReachableWhen Agreeing s) :
    TrueTerms s := by
  have hinv : Inv s := h.invariant (inv_start o) fun s s' a hs hagree hstep => hs.step hagree hstep
  exact hinv.trueTerms

instance (s : State) (a : Action) : Decidable (Agreeing s a) := by
  unfold Agreeing
  split <;> infer_instance

def splitOrigin : Origin := ⟨3, true, by decide⟩

def agreeingRun : List Action :=
  [.bootstrapRegion 1, .peer 1 (.handleReady 3), .peer 1 (.setAppliedIndex 3),
   .peer 1 .splitCompact, .commit ⟨2, none⟩, .commit ⟨2, some ⟨3, 1⟩⟩,
   .peer 1 (.handleReady 2), .peer 1 .requestSnapshot, .createPeer 2,
   .peer 2 (.applySnapshot ⟨3, 1⟩)]

theorem trueTerms_agreeingRun : ∃ s, (system splitOrigin).ReachableWhen Agreeing s ∧
    (s.peers 1).map Peer.applyState = some ⟨3, 3, 1⟩ ∧
    (s.peers 2).map Peer.applyState = some ⟨3, 3, 1⟩ ∧ TrueTerms s := by
  obtain ⟨s, hs, h₁, h₂⟩ : ∃ s,
      (system splitOrigin).runWhen Agreeing (start splitOrigin) agreeingRun = some s ∧
      (s.peers 1).map applyState = some ⟨3, 3, 1⟩ ∧
      (s.peers 2).map applyState = some ⟨3, 3, 1⟩ := ⟨_, rfl, rfl, rfl⟩
  have hreach := reachableWhen_of_run .start hs
  exact ⟨s, hreach, h₁, h₂, trueTerms_of_agreeing splitOrigin hreach⟩

def disagreeingRun : List Action :=
  [.bootstrapRegion 1, .commit ⟨2, none⟩, .peer 1 (.handleReady 4), .peer 1 (.setAppliedIndex 4),
   .peer 1 .requestSnapshot, .peer 1 .splitCompact, .commit ⟨2, some ⟨4, 1⟩⟩,
   .peer 1 (.handleReady 1)]

/-- **False terms**: the entry at index 4 has term 2, a snapshot at index 4 has term 0, and
then the log is truncated at index 4 with term 1. -/
theorem false_terms_reachable : ∃ s, (system splitOrigin).Reachable s ∧
    termAt s.log 4 = some 2 ∧ s.snapshots = [⟨4, 0⟩] ∧
    (s.peers 1).map Peer.applyState = some ⟨4, 4, 1⟩ ∧ ¬ TrueTerms s := by
  obtain ⟨s, hs, hterm, hsnap, hpeer⟩ : ∃ s,
      (system splitOrigin).runFrom (start splitOrigin) disagreeingRun = some s ∧
      termAt s.log 4 = some 2 ∧ s.snapshots = [⟨4, 0⟩] ∧
      (s.peers 1).map applyState = some ⟨4, 4, 1⟩ := ⟨_, rfl, rfl, rfl, rfl⟩
  refine ⟨s, reachable_of_run .start hs, hterm, hsnap, hpeer, ?_⟩
  intro h
  have htrue := h.snapshots ⟨4, 0⟩ (by rw [hsnap]; simp) (by decide)
  rw [hterm] at htrue
  cases htrue

end BoundaryTerms
