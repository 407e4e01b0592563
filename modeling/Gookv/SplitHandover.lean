/-
How a split hands a key range over: `handleReady` and `submitToApplyWorker` of
`internal/raftstore/peer.go`, `handleSplitApplyResult` and `maybeCreatePeerForMessage` of
`internal/server/coordinator.go`.
-/
import Gookv.RegionLog

namespace SplitHandover

open StepSystem

open Txntypes Metapb Raftstore SnapshotRegion RegionLog Function LastWrite Option
open StoreRestart (CF Engine Request dataCFs applyEntriesForPeer entryWrite
  applyEntriesForPeer_apply)

/-! ### The code -/

def splitResult (region : Region) : Command → Option SplitRegionResult
  | .admin (.splitAdmin (some req)) => (execSplitAdmin region req).toOption
  | _ => none

def splitResults (region : Region) : List Command → List SplitRegionResult
  | [] => []
  | c :: batch => (splitResult region c).toList ++ splitResults (applyRegion region c) batch

structure State where
  engine : Engine
  peers : ℕ → Option RegionLog.Peer
  results : List SplitRegionResult

inductive Action
  | handleReady (regionID count : ℕ)
  | applyNext (regionID : ℕ)
  | handleSplitApplyResult (n : ℕ)
  | maybeCreatePeerForMessage (region : Region)
  deriving DecidableEq

def addPeer (peers : ℕ → Option RegionLog.Peer) (region : Region) : ℕ → Option RegionLog.Peer :=
  match peers region.id with
  | some _ => peers
  | none => update peers region.id (some { region })

structure Split where
  engine : Engine
  region : Region
  logs : ℕ → List Command
  index : ℕ
  req : SplitAdminRequest
  result : SplitRegionResult
  child : Region
  isSplit : (logs region.id)[index]? = some (.admin (.splitAdmin (some req)))
  accepted : execSplitAdmin (regionAfter region ((logs region.id).take index)) req = .ok result
  mem : child ∈ result.regions
  ne : child.id ≠ region.id

def applied (peers : ℕ → Option RegionLog.Peer) (regionID : ℕ) : ℕ :=
  ((peers regionID).map RegionLog.Peer.applied).getD 0

namespace Split

variable (x : Split)

def parentLog : List Command := x.logs x.region.id

def childLog : List Command := x.logs x.child.id

def step (s : State) : Action → Option State
  | .handleReady regionID count =>
    match s.peers regionID with
    | none => none
    | some p =>
      if p.delivered + count ≤ (x.logs regionID).length then
        let batch := ((x.logs regionID).drop p.delivered).take count
        some { s with
          peers := update s.peers regionID (some (p.handleReady (x.logs regionID) count))
          results := s.results ++ splitResults p.region batch }
      else none
  | .applyNext regionID =>
    match s.peers regionID with
    | none => none
    | some p =>
      if p.applied < p.delivered then
        some { s with
          engine := applyAt s.engine (x.logs regionID) p.applied
          peers := update s.peers regionID (some { p with applied := p.applied + 1 }) }
      else none
  | .handleSplitApplyResult n =>
    s.results[n]?.map fun result =>
      { s with
        peers := result.regions.foldl addPeer s.peers
        results := s.results.eraseIdx n }
  | .maybeCreatePeerForMessage region => some { s with peers := addPeer s.peers region }

def start : State :=
  ⟨x.engine, update (fun _ => none) x.region.id (some { region := x.region }), []⟩

def system : StepSystem State Action := ⟨x.start, x.step⟩

def HandsOver (s : State) : Prop :=
  x.index ≤ applied s.peers x.region.id → applied s.peers x.child.id = x.childLog.length →
    ∀ cf ∈ dataCFs, ∀ key, x.child.contains key →
      s.engine cf key = applyEntriesForPeer x.engine
        (dataEntries (x.parentLog.take x.index) ++ dataEntries x.childLog) cf key

/-! ### When it is so -/

/-- No earlier entry of the parent that writes the key is still to be applied. -/
def Written (a : ℕ) (cf : CF) (key : Key) : Prop :=
  ∀ i, a ≤ i → i < x.index → (dataAt x.parentLog i).bind (entryWrite cf key) = none

def InOrder (s : State) : Action → Prop
  | .applyNext regionID =>
    ∀ cf ∈ dataCFs, ∀ key, x.child.contains key →
      (dataAt (x.logs regionID) (applied s.peers regionID)).bind (entryWrite cf key) ≠ none →
        regionID = x.region.id ∧ applied s.peers x.region.id < x.index ∨
          regionID = x.child.id ∧ x.Written (applied s.peers x.region.id) cf key
  | _ => True

/-- A key of the child holds what the entries so far have written, the parent's first, and the child
has only written to keys that the parent is done with. -/
structure Inv (engine : Engine) (a b : ℕ) : Prop where
  value : ∀ cf ∈ dataCFs, ∀ key, x.child.contains key →
    engine cf key =
      (LastWrite (entryWrite cf key) (dataEntries (x.parentLog.take (min a x.index)) ++
        dataEntries (x.childLog.take b))).getD (x.engine cf key)
  written : ∀ cf ∈ dataCFs, ∀ key, x.child.contains key →
    LastWrite (entryWrite cf key) (dataEntries (x.childLog.take b)) ≠ none → x.Written a cf key

variable {x} {engine engine' : Engine} {a b : ℕ} {act : Action} {s s' : State}

theorem Written.succ {cf : CF} {key : Key} (h : x.Written a cf key) : x.Written (a + 1) cf key :=
  fun i hi => h i (by omega)

namespace Inv

theorem start (x : Split) : x.Inv x.engine 0 0 where
  value _ _ _ _ := rfl
  written _ _ _ _ hne := absurd rfl hne

theorem parent (h : x.Inv engine a b) (ha : a < x.index) :
    x.Inv (applyAt engine x.parentLog a) (a + 1) b where
  value cf hcf key hkey := by
    have hmin : min (a + 1) x.index = a + 1 := Nat.min_eq_left ha
    have hold := h.value cf hcf key hkey
    rw [Nat.min_eq_left ha.le, LastWrite.append] at hold
    rw [applyAt_apply, hold, hmin, dataEntries_take_succ, LastWrite.append, LastWrite.append,
      LastWrite.toList]
    cases hwrite : (dataAt x.parentLog a).bind (entryWrite cf key) with
    | none => rfl
    | some v =>
      -- the child has not written this key, as the parent was not done with it
      have hchild : LastWrite (entryWrite cf key) (dataEntries (x.childLog.take b)) = none := by
        by_contra hne
        have hdone := h.written cf hcf key hkey hne a le_rfl ha
        rw [hwrite] at hdone
        cases hdone
      rw [hchild]
      rfl
  written cf hcf key hkey hne := (h.written cf hcf key hkey hne).succ

theorem child (h : x.Inv engine a b) (hwritten : ∀ cf ∈ dataCFs, ∀ key, x.child.contains key →
      (dataAt x.childLog b).bind (entryWrite cf key) ≠ none → x.Written a cf key) :
    x.Inv (applyAt engine x.childLog b) a (b + 1) where
  value cf hcf key hkey := by
    -- the new entry is the last of all
    rw [applyAt_apply, h.value cf hcf key hkey, dataEntries_take_succ, ← List.append_assoc,
      LastWrite.append _ (Option.toList _), LastWrite.toList]
    cases (dataAt x.childLog b).bind (entryWrite cf key) <;> rfl
  written cf hcf key hkey hne := by
    rw [dataEntries_take_succ, LastWrite.append, LastWrite.toList] at hne
    cases hwrite : (dataAt x.childLog b).bind (entryWrite cf key) with
    | none =>
      rw [hwrite, Option.none_or] at hne
      exact h.written cf hcf key hkey hne
    | some v =>
      refine hwritten cf hcf key hkey ?_
      rw [hwrite]
      exact Option.some_ne_none v

theorem frame (h : x.Inv engine a b)
    (hsame : ∀ cf ∈ dataCFs, ∀ key, x.child.contains key → engine' cf key = engine cf key) :
    x.Inv engine' a b where
  value cf hcf key hkey := by rw [hsame cf hcf key hkey, h.value cf hcf key hkey]
  written := h.written

theorem behind (h : x.Inv engine a b) (ha : x.index ≤ a) : x.Inv engine (a + 1) b where
  value cf hcf key hkey := by
    have hmin : min (a + 1) x.index = min a x.index := by omega
    rw [hmin]
    exact h.value cf hcf key hkey
  written cf hcf key hkey hne := (h.written cf hcf key hkey hne).succ

end Inv

theorem applied_addPeer (peers : ℕ → Option RegionLog.Peer) (region : Region) :
    applied (addPeer peers region) = applied peers := by
  funext id
  unfold addPeer
  split
  · rfl
  · rename_i hnone
    unfold applied
    by_cases hid : id = region.id
    · rw [hid, update_self, hnone]
      rfl
    · rw [update_of_ne hid]

theorem applied_foldl_addPeer (regions : List Region) (peers : ℕ → Option RegionLog.Peer) :
    applied (regions.foldl addPeer peers) = applied peers := by
  induction regions generalizing peers with
  | nil => rfl
  | cons region regions ih => rw [List.foldl_cons, ih, applied_addPeer]

theorem applied_update (peers : ℕ → Option RegionLog.Peer) (id : ℕ) (p : RegionLog.Peer) :
    applied (update peers id (some p)) = update (applied peers) id p.applied := by
  funext id'
  unfold applied
  by_cases hid : id' = id
  · rw [hid, update_self, update_self]
    rfl
  · rw [update_of_ne hid, update_of_ne hid]

theorem step_cases (hstep : x.step s act = some s') :
    s'.engine = s.engine ∧ applied s'.peers = applied s.peers ∨
      ∃ id, act = .applyNext id ∧
        s'.engine = applyAt s.engine (x.logs id) (applied s.peers id) ∧
        applied s'.peers = update (applied s.peers) id (applied s.peers id + 1) := by
  cases act with
  | handleReady id count =>
    dsimp only [step] at hstep
    cases hp : s.peers id with
    | none =>
      rw [hp] at hstep
      cases hstep
    | some p =>
      rw [hp] at hstep
      obtain ⟨-, rfl⟩ := of_guard hstep
      refine .inl ⟨rfl, ?_⟩
      -- the data entries of the batch only wait
      have happlied : (p.handleReady (x.logs id) count).applied = applied s.peers id := by
        rw [applied, hp]
        rfl
      rw [applied_update, happlied, update_eq_self]
  | applyNext id =>
    dsimp only [step] at hstep
    cases hp : s.peers id with
    | none =>
      rw [hp] at hstep
      cases hstep
    | some p =>
      rw [hp] at hstep
      obtain ⟨-, rfl⟩ := of_guard hstep
      have happlied : p.applied = applied s.peers id := by
        rw [applied, hp]
        rfl
      refine .inr ⟨id, rfl, ?_, ?_⟩
      · rw [← happlied]
      · rw [applied_update, ← happlied]
  | handleSplitApplyResult n =>
    obtain ⟨result, -, rfl⟩ := map_eq_some_iff.mp hstep
    exact .inl ⟨rfl, applied_foldl_addPeer _ _⟩
  | maybeCreatePeerForMessage region =>
    cases hstep
    exact .inl ⟨rfl, applied_addPeer _ _⟩

theorem step_inv (h : x.Inv s.engine (applied s.peers x.region.id) (applied s.peers x.child.id))
    (horder : x.InOrder s act) (hstep : x.step s act = some s') :
    x.Inv s'.engine (applied s'.peers x.region.id) (applied s'.peers x.child.id) := by
  obtain ⟨hengine, happlied⟩ | ⟨id, rfl, hengine, happlied⟩ := step_cases hstep
  · rw [hengine, happlied]
    exact h
  · -- an entry that is none of the two kinds leaves the keys of the child alone
    have hframe : (∀ cf ∈ dataCFs, ∀ key, x.child.contains key →
        (dataAt (x.logs id) (applied s.peers id)).bind (entryWrite cf key) = none) →
        x.Inv s'.engine (applied s.peers x.region.id) (applied s.peers x.child.id) := by
      intro hnone
      refine h.frame ?_
      intro cf hcf key hkey
      rw [hengine, applyAt_apply, hnone cf hcf key hkey, getD_none]
    by_cases hparent : id = x.region.id
    · subst hparent
      rw [happlied, update_self, update_of_ne x.ne]
      by_cases hbefore : applied s.peers x.region.id < x.index
      · rw [hengine]
        exact h.parent hbefore
      · refine (hframe ?_).behind (not_lt.mp hbefore)
        intro cf hcf key hkey
        by_contra hne
        rcases horder cf hcf key hkey hne with ⟨-, hlt⟩ | ⟨heq, -⟩
        · exact hbefore hlt
        · exact x.ne heq.symm
    · by_cases hchild : id = x.child.id
      · subst hchild
        rw [happlied, update_self, update_of_ne x.ne.symm, hengine]
        refine h.child ?_
        intro cf hcf key hkey hne
        rcases horder cf hcf key hkey hne with ⟨heq, -⟩ | ⟨-, hwritten⟩
        · exact absurd heq x.ne
        · exact hwritten
      · rw [happlied, update_of_ne (Ne.symm hparent),
          update_of_ne (Ne.symm hchild)]
        refine hframe ?_
        intro cf hcf key hkey
        by_contra hne
        rcases horder cf hcf key hkey hne with ⟨heq, -⟩ | ⟨heq, -⟩
        · exact hparent heq
        · exact hchild heq

/-- **In every run that applies the entries in order, a split hands the range over in
order.** -/
theorem handsOver_of_inOrder (x : Split) {s : State}
    (h : x.system.ReachableWhen x.InOrder s) : x.HandsOver s := by
  have hstart : applied x.start.peers x.region.id = 0 ∧ applied x.start.peers x.child.id = 0 := by
    rw [start, applied_update]
    exact ⟨update_self .., update_of_ne x.ne ..⟩
  have hinv : x.Inv s.engine (applied s.peers x.region.id) (applied s.peers x.child.id) := by
    refine h.invariant (P := fun s =>
      x.Inv s.engine (applied s.peers x.region.id) (applied s.peers x.child.id)) ?_
      fun _ _ _ hinv horder hstep => step_inv hinv horder hstep
    show x.Inv x.engine (applied x.start.peers x.region.id) (applied x.start.peers x.child.id)
    rw [hstart.1, hstart.2]
    exact .start x
  intro hparent hchild cf hcf key hkey
  rw [hinv.value cf hcf key hkey, Nat.min_eq_right hparent, hchild, List.take_length,
    applyEntriesForPeer_apply]

end Split

def logsAtM : ℕ → List Command
  | 1 => [.data none [.put .default [0x6d] [1]], .admin splitAtM]
  | 2 => [.data none [.put .default [0x6d] [2]]]
  | _ => []

def childAtM : Region :=
  { id := 2, startKey := [0x6d], regionEpoch := some ⟨0, 1⟩, peers := [{ id := 20, storeId := 1 }] }

def atM : Split where
  engine := fun _ _ => none
  region := wholeRegion
  logs := logsAtM
  index := 1
  req := ⟨[0x6d], [2], [[20]]⟩
  result := splitRegion wholeRegion ⟨[0x6d], [2], [[20]]⟩
  child := childAtM
  isSplit := rfl
  accepted := rfl
  mem := by decide
  ne := by decide

theorem handsOver_atM : ∃ s, atM.system.ReachableWhen atM.InOrder s ∧
    applied s.peers 1 = 2 ∧ applied s.peers 2 = 1 ∧
    s.engine .default [0x6d] = some [2] ∧ atM.HandsOver s := by
  obtain ⟨s, hreach, hparent, hchild⟩ : ∃ s, atM.system.ReachableWhen atM.InOrder s ∧
      applied s.peers 1 = 2 ∧ applied s.peers 2 = 1 := by
    refine ⟨_, .step (a := .applyNext 2) (.step (a := .handleReady 2 1)
      (.step (a := .handleSplitApplyResult 0) (.step (a := .applyNext 1)
      (.step (a := .applyNext 1) (.step (a := .handleReady 1 2) .start trivial rfl)
      ?_ rfl) ?_ rfl) trivial rfl) trivial rfl) ?_ rfl, rfl, rfl⟩
    · intro cf hcf key hkey hne
      exact .inl ⟨rfl, by decide⟩
    · intro cf hcf key hkey hne
      exact absurd rfl hne
    · intro cf hcf key hkey hne
      refine .inr ⟨rfl, ?_⟩
      intro i hi hlt
      change 2 ≤ i at hi
      change i < 1 at hlt
      omega
  have hover := Split.handsOver_of_inOrder atM hreach
  refine ⟨s, hreach, hparent, hchild, ?_, hover⟩
  rw [hover (by rw [show atM.region.id = 1 from rfl, hparent]; decide) hchild .default (by decide)
    [0x6d] (by decide)]
  rfl

def overtakingRun : List Action :=
  [.handleReady 1 2,
   .handleSplitApplyResult 0,
   .handleReady 2 1,
   .applyNext 2,
   .applyNext 1,
   .applyNext 1]

theorem parent_overwrites_child : ∃ s, atM.system.Reachable s ∧
    applied s.peers 1 = 2 ∧ applied s.peers 2 = 1 ∧ atM.child.contains [0x6d] ∧
    s.engine .default [0x6d] = some [1] ∧ ¬ atM.HandsOver s := by
  obtain ⟨s, hrun, hparent, hchild, hvalue⟩ : ∃ s,
      atM.system.runFrom atM.start overtakingRun = some s ∧
      applied s.peers 1 = 2 ∧ applied s.peers 2 = 1 ∧
      s.engine .default [0x6d] = some [1] :=
    ⟨_, rfl, rfl, rfl, rfl⟩
  refine ⟨s, reachable_of_run .start hrun, hparent, hchild, by decide, hvalue, ?_⟩
  intro hover
  have hlast := hover (by rw [show atM.region.id = 1 from rfl, hparent]; decide) hchild .default
    (by decide) [0x6d] (by decide)
  rw [hvalue] at hlast
  exact absurd hlast (by decide)

end SplitHandover
