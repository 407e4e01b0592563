/-
The client side of a transaction and its primary key (`pkg/client/txn.go`,
`pkg/client/committer.go`).
-/
import Gookv.TxnRuns

open Txntypes Mvcc Txn

namespace Client

open List Option StepSystem Store

open Storage (Command)

/-! ### The handle -/

inductive TxnMode
  | optimistic
  | pessimistic
  deriving DecidableEq

structure TxnOptions where
  mode : TxnMode := .optimistic
  useAsyncCommit : Bool := false
  try1PC : Bool := false
  lockTTL : UInt64 := 3000

structure MutationEntry where
  op : MutationOp
  value : Option Value

structure TxnHandle where
  startTS : TimeStamp
  opts : TxnOptions
  membuf : List (Key × MutationEntry) := []
  cachedPrimary : Option Key := none
  committed : Bool := false
  rolledBack : Bool := false

inductive HandleError
  | txnCommitted
  | txnRolledBack
  deriving DecidableEq

def smaller (minKey : Option Key) (key : Key) : Option Key :=
  match minKey with
  | none => some key
  | some m => if key < m then some key else some m

def TxnHandle.primaryKey (h : TxnHandle) : Key × TxnHandle :=
  match h.cachedPrimary with
  | some primary => (primary, h)
  | none =>
    let minKey := ((h.membuf.map Prod.fst).foldl smaller none).getD []
    if minKey ≠ [] then (minKey, { h with cachedPrimary := some minKey }) else ([], h)

def TxnHandle.acquirePessimisticLock (h : TxnHandle) (key : Key) : TxnHandle × List Command :=
  let (primary, h) := h.primaryKey
  (h, [.pessimisticLock [key] primary h.startTS h.startTS h.opts.lockTTL])

def TxnHandle.write (h : TxnHandle) (key : Key) (entry : MutationEntry) :
    Except HandleError (TxnHandle × List Command) :=
  if h.committed then .error .txnCommitted
  else if h.rolledBack then .error .txnRolledBack
  else
    let h := { h with membuf := h.membuf.filter (fun e => e.1 ≠ key) ++ [(key, entry)] }
    if h.opts.mode = .pessimistic then .ok (h.acquirePessimisticLock key) else .ok (h, [])

def TxnHandle.set (h : TxnHandle) (key : Key) (value : Value) :
    Except HandleError (TxnHandle × List Command) :=
  h.write key { op := .put, value := some value }

def TxnHandle.delete (h : TxnHandle) (key : Key) :
    Except HandleError (TxnHandle × List Command) :=
  h.write key { op := .delete, value := none }

inductive Call
  | set (key : Key) (value : Value)
  | delete (key : Key)
  deriving DecidableEq

def Call.key : Call → Key
  | .set key _ => key
  | .delete key => key

def TxnHandle.call (h : TxnHandle) : Call → Except HandleError (TxnHandle × List Command)
  | .set key value => h.set key value
  | .delete key => h.delete key

open TxnHandle

structure TwoPhaseCommitter where
  startTS : TimeStamp
  mutations : List Mutation
  primary : Key
  opts : TxnOptions

def newTwoPhaseCommitter (h : TxnHandle) : TwoPhaseCommitter :=
  let mutations := (h.membuf.map fun e : Key × MutationEntry =>
    ({ op := e.2.op, key := e.1, value := e.2.value } : Mutation)).insertionSort
      fun a b => a.key ≤ b.key
  { startTS := h.startTS, mutations := mutations, opts := h.opts,
    primary := (mutations.head?.map Mutation.key).getD [] }

def TxnHandle.commit (h : TxnHandle) :
    Except HandleError (TxnHandle × Option TwoPhaseCommitter) :=
  if h.committed then .error .txnCommitted
  else if h.rolledBack then .error .txnRolledBack
  else if h.membuf.isEmpty then .ok ({ h with committed := true }, none)
  else .ok (h, some (newTwoPhaseCommitter h))

def TwoPhaseCommitter.prewriteRegion (c : TwoPhaseCommitter) (muts : List Mutation)
    (onePCCommitTS maxCommitTS : TimeStamp) : Command :=
  if c.opts.try1PC ∧ c.mutations.length = muts.length ∧ is1PCEligible muts 0 then
    .prewrite1PC muts c.primary c.startTS onePCCommitTS c.opts.lockTTL
  else if c.opts.useAsyncCommit ∧ isAsyncCommitEligible muts 0 then
    .prewriteAsyncCommit muts c.primary c.startTS c.opts.lockTTL
      ((c.mutations.map Mutation.key).filter (· ≠ c.primary)) maxCommitTS
  else .prewrite muts c.primary c.startTS c.opts.lockTTL

/-- `commitPrimary` takes a transaction with `Try1PC` and a timestamp for committed. -/
def TwoPhaseCommitter.commitPrimary (c : TwoPhaseCommitter) (commitTS : TimeStamp) :
    List Command :=
  if commitTS ≠ 0 ∧ c.opts.try1PC then [] else [.commit [c.primary] c.startTS commitTS]

def TwoPhaseCommitter.secondaryKeys (c : TwoPhaseCommitter) : List Key :=
  if c.opts.try1PC ∧ c.mutations.length ≤ 1 then []
  else (c.mutations.map Mutation.key).filter (· ≠ c.primary)

def TwoPhaseCommitter.commitSecondaries (c : TwoPhaseCommitter) (keys : List Key)
    (commitTS : TimeStamp) : Command :=
  .commit keys c.startTS commitTS

/-- The mutations that a prewrite asks for. -/
def mutationsOf : Command → List Mutation
  | .prewrite muts _ _ _ => muts
  | .prewriteAsyncCommit muts _ _ _ _ _ => muts
  | .prewrite1PC muts _ _ _ _ => muts
  | _ => []

/-- `acked` are the requests that were answered without an error; `passed` says that
`commitPrimary` was run. -/
structure State where
  store : Store
  handle : TxnHandle
  calls : List Call
  committer : Option TwoPhaseCommitter := none
  sent : List Command := []
  acked : List Command := []
  passed : Bool := false

inductive Action
  | call
  | commit
  | prewriteRegion (muts : List Mutation) (onePCCommitTS maxCommitTS : TimeStamp)
  | commitPrimary (commitTS : TimeStamp)
  | commitSecondaries (keys : List Key) (commitTS : TimeStamp)
  | deliver (i : ℕ)
  | other (cmd : Command)

def isCommit : Command → Bool
  | .commit _ _ _ => true
  | _ => false

def LocksFor (t : TimeStamp) (cmd : Command) : Prop :=
  cmd.isLocking ∧ ∃ a ∈ cmd.actions, a.startTS = t

instance (t : TimeStamp) (cmd : Command) : Decidable (LocksFor t cmd) :=
  inferInstanceAs (Decidable (_ ∧ ∃ a ∈ _, _))

def State.send (s : State) (cmds : List Command) : State := { s with sent := s.sent ++ cmds }

def State.committing (s : State) (request : TwoPhaseCommitter → Option Command) :
    Option State :=
  (s.committer.bind request).map fun cmd => s.send [cmd]

def step (s : State) : Action → Option State
  | .call =>
    match s.calls with
    | [] => none
    | c :: rest =>
      match s.handle.call c with
      | .ok (h, cmds) => some ({ s with handle := h, calls := rest }.send cmds)
      | .error _ => some { s with calls := rest }
  | .commit =>
    match s.calls, s.committer, s.handle.commit with
    | [], none, .ok (h, c) => some { s with handle := h, committer := c }
    | _, _, _ => none
  | .prewriteRegion muts onePCCommitTS maxCommitTS =>
    s.committing fun c => if ∀ m ∈ muts, m ∈ c.mutations then
      some (c.prewriteRegion muts onePCCommitTS maxCommitTS) else none
  | .commitPrimary commitTS =>
    s.committer.bind fun c => if ∀ m ∈ c.mutations, ∃ cmd ∈ s.acked, m ∈ mutationsOf cmd then
      some ({ s with passed := true }.send (c.commitPrimary commitTS)) else none
  | .commitSecondaries keys commitTS =>
    s.committing fun c => if s.passed ∧ keys ≠ [] ∧ ∀ k ∈ keys, k ∈ c.secondaryKeys then
      some (c.commitSecondaries keys commitTS) else none
  | .deliver i => s.sent[i]?.map fun cmd =>
    { s with
      store := Storage.run s.store cmd
      acked := if Storage.Accepted s.store cmd then cmd :: s.acked else s.acked }
  | .other cmd =>
    if ¬LocksFor s.handle.startTS cmd then some { s with store := Storage.run s.store cmd }
    else none

def system (opts : TxnOptions) (t : TimeStamp) (calls : List Call) :
    StepSystem State Action where
  start := { store := Store.empty, handle := { startTS := t, opts := opts }, calls := calls }
  step := step

/-! ### The two choices of a primary -/

section
variable {h h' : TxnHandle} {c : Call}

def TxnHandle.keys (h : TxnHandle) : List Key := h.membuf.map Prod.fst

def TxnHandle.Live (h : TxnHandle) : Prop := h.committed = false ∧ h.rolledBack = false

def IsSmallest (m : Key) (l : List Key) : Prop := m ∈ l ∧ ∀ k ∈ l, m ≤ k

theorem IsSmallest.unique {m m' : Key} {l : List Key} (h : IsSmallest m l)
    (h' : IsSmallest m' l) : m = m' :=
  le_antisymm (h.2 m' h'.1) (h'.2 m h.1)

theorem foldl_smaller : ∀ (l : List Key) (m : Key),
    ∃ m', l.foldl smaller (some m) = some m' ∧ IsSmallest m' (m :: l)
  | [], m => ⟨m, rfl, by simp [IsSmallest]⟩
  | k :: l, m => by
    rw [foldl_cons, smaller]
    by_cases hk : k < m
    · obtain ⟨m', hm', hmem, hle⟩ := foldl_smaller l k
      refine ⟨m', by rw [if_pos hk, hm'], mem_cons_of_mem _ hmem, ?_⟩
      intro k' hk'
      rcases List.mem_cons.mp hk' with rfl | hk'
      · exact (hle k (by simp)).trans hk.le
      · exact hle k' hk'
    · obtain ⟨m', hm', hmem, hle⟩ := foldl_smaller l m
      refine ⟨m', by rw [if_neg hk, hm'], ?_, ?_⟩
      · rcases List.mem_cons.mp hmem with rfl | hmem
        · simp
        · simp [hmem]
      · intro k' hk'
        rcases List.mem_cons.mp hk' with rfl | hk'
        · exact hle k' (by simp)
        · rcases List.mem_cons.mp hk' with rfl | hk'
          · exact (hle m (by simp)).trans (not_lt.mp hk)
          · exact hle k' (by simp [hk'])

theorem primaryKey_of_uncached (hc : h.cachedPrimary = none) (hne : h.keys ≠ []) :
    IsSmallest h.primaryKey.1 h.keys ∧ h.primaryKey.2 =
      { h with cachedPrimary := if h.primaryKey.1 ≠ [] then some h.primaryKey.1 else none } := by
  obtain ⟨k, l, hl⟩ := exists_cons_of_ne_nil hne
  obtain ⟨m, hm, hsmall⟩ := foldl_smaller l k
  have hfold : (h.membuf.map Prod.fst).foldl smaller none = some m := by
    rw [TxnHandle.keys] at hl
    rw [hl]
    exact hm
  have hpk : h.primaryKey =
      if m ≠ [] then (m, { h with cachedPrimary := some m }) else ([], h) := by
    unfold TxnHandle.primaryKey
    rw [hc, hfold]
    rfl
  rw [hl]
  by_cases hm0 : m = []
  · subst hm0
    have hpk' : h.primaryKey = ([], h) := by simpa using hpk
    rw [hpk']
    exact ⟨hsmall, by simp [← hc]⟩
  · rw [if_pos hm0] at hpk
    rw [hpk]
    exact ⟨hsmall, by simp [hm0]⟩

theorem perm_keys : ((newTwoPhaseCommitter h).mutations.map Mutation.key).Perm h.keys := by
  have hmap := (List.perm_insertionSort (fun a b : Mutation => a.key ≤ b.key)
    (h.membuf.map fun e => { op := e.2.op, key := e.1, value := e.2.value })).map Mutation.key
  rwa [List.map_map] at hmap

theorem mem_keys_of_mutation {m : Mutation}
    (hm : m ∈ (newTwoPhaseCommitter h).mutations) : m.key ∈ h.keys :=
  perm_keys.mem_iff.mp (mem_map_of_mem hm)

theorem newTwoPhaseCommitter_primary (hne : h.keys ≠ []) :
    IsSmallest (newTwoPhaseCommitter h).primary h.keys := by
  have hkeys := perm_keys (h := h)
  have hsorted : (newTwoPhaseCommitter h).mutations.Pairwise fun a b => a.key ≤ b.key :=
    pairwise_insertionSort _ _
  have hprimary : (newTwoPhaseCommitter h).primary =
    ((newTwoPhaseCommitter h).mutations.head?.map Mutation.key).getD [] := rfl
  rw [hprimary]
  cases hm : (newTwoPhaseCommitter h).mutations with
  | nil =>
    rw [hm] at hkeys
    exact absurd (List.nil_perm.mp hkeys) hne
  | cons m rest =>
    rw [hm] at hkeys hsorted
    have hle := (List.pairwise_cons.mp hsorted).1
    refine ⟨hkeys.mem_iff.mp (by simp), fun k hk => ?_⟩
    rcases List.mem_cons.mp (hkeys.mem_iff.mpr hk) with rfl | hk'
    · exact le_rfl
    · obtain ⟨m', hm', rfl⟩ := List.mem_map.mp hk'
      exact hle m' hm'

def Call.entry : Call → MutationEntry
  | .set _ value => { op := .put, value := some value }
  | .delete _ => { op := .delete, value := none }

def TxnHandle.buffer (h : TxnHandle) (c : Call) : TxnHandle :=
  { h with membuf := h.membuf.filter (fun e => e.1 ≠ c.key) ++ [(c.key, c.entry)] }

theorem call_eq (hl : h.Live) : h.call c =
    if h.opts.mode = .pessimistic then .ok ((h.buffer c).acquirePessimisticLock c.key)
    else .ok (h.buffer c, []) := by
  have hw : h.call c = h.write c.key c.entry := by cases c <;> rfl
  rw [hw, write, if_neg (by simp [hl.1]), if_neg (by simp [hl.2])]
  rfl

theorem mem_keys_buffer {k : Key} : k ∈ (h.buffer c).keys ↔ k = c.key ∨ k ∈ h.keys := by
  by_cases hk : k = c.key
  · simp [TxnHandle.keys, TxnHandle.buffer, hk]
  · simp [TxnHandle.keys, TxnHandle.buffer, hk]

theorem primaryKey_snd : ∃ p, h.primaryKey.2 = { h with cachedPrimary := p } := by
  unfold primaryKey
  cases hc : h.cachedPrimary with
  | some p => exact ⟨some p, by simp [← hc]⟩
  | none =>
    dsimp only
    split
    · exact ⟨_, rfl⟩
    · exact ⟨none, by simp [← hc]⟩

theorem call_ok (hl : h.Live) : ∃ h' cmds, h.call c = .ok (h', cmds) ∧ h'.Live ∧
    h'.startTS = h.startTS ∧ h'.opts = h.opts ∧ (∀ k, k ∈ h'.keys ↔ k = c.key ∨ k ∈ h.keys) ∧
    (h.opts.mode = .pessimistic → h' = (h.buffer c).primaryKey.2 ∧
      cmds = [.pessimisticLock [c.key] (h.buffer c).primaryKey.1 h.startTS h.startTS
        h.opts.lockTTL]) ∧ (h.opts.mode ≠ .pessimistic → cmds = []) := by
  rw [call_eq hl]
  by_cases hm : h.opts.mode = .pessimistic
  · obtain ⟨p, hp⟩ := primaryKey_snd (h := h.buffer c)
    have hcmd : (h.buffer c).acquirePessimisticLock c.key = ((h.buffer c).primaryKey.2,
        [.pessimisticLock [c.key] (h.buffer c).primaryKey.1 (h.buffer c).primaryKey.2.startTS
          (h.buffer c).primaryKey.2.startTS (h.buffer c).primaryKey.2.opts.lockTTL]) := rfl
    rw [if_pos hm, hcmd]
    refine ⟨_, _, rfl, ?_⟩
    rw [hp]
    exact ⟨hl, rfl, rfl, fun k => mem_keys_buffer, fun _ => ⟨rfl, rfl⟩, fun h => absurd hm h⟩
  · rw [if_neg hm]
    exact ⟨_, _, rfl, hl, rfl, rfl, fun k => mem_keys_buffer, fun h => absurd h hm,
      fun _ => rfl⟩

def TxnHandle.Fixed (h : TxnHandle) (p : Key) : Prop :=
  h.cachedPrimary = some p ∨ p = [] ∧ h.cachedPrimary = none ∧ [] ∈ h.keys

theorem nil_le_key (k : Key) : [] ≤ k := not_lt.mp (not_lt_nil k)

variable {p : Key}

theorem Fixed.primaryKey (hf : h.Fixed p) :
    h.primaryKey.1 = p ∧ h.primaryKey.2.Fixed p := by
  rcases hf with hc | ⟨rfl, hc, hk⟩
  · simp [TxnHandle.primaryKey, hc, TxnHandle.Fixed]
  · obtain ⟨hsmall, hsnd⟩ := primaryKey_of_uncached hc (ne_nil_of_mem hk)
    have hp : h.primaryKey.1 = [] :=
      hsmall.unique ⟨hk, fun k _ => nil_le_key k⟩
    rw [hp] at hsnd
    refine ⟨hp, ?_⟩
    rw [hsnd]
    exact Or.inr ⟨rfl, by simp, hk⟩

theorem Fixed.buffer (hf : h.Fixed p) : (h.buffer c).Fixed p :=
  hf.imp_right fun ⟨hp, hc, hk⟩ => ⟨hp, hc, mem_keys_buffer.mpr (.inr hk)⟩

theorem primaryKey_first (hc : h.cachedPrimary = none) (hk : h.keys = []) :
    (h.buffer c).primaryKey.1 = c.key ∧ (h.buffer c).primaryKey.2.Fixed c.key := by
  have hkeys : ∀ k, k ∈ (h.buffer c).keys ↔ k = c.key := by
    intro k
    simp [mem_keys_buffer, hk]
  obtain ⟨hsmall, hsnd⟩ := primaryKey_of_uncached (h := h.buffer c) hc
    (ne_nil_of_mem ((hkeys c.key).mpr rfl))
  have hp := (hkeys _).mp hsmall.1
  rw [hp] at hsnd
  refine ⟨hp, ?_⟩
  rw [hsnd]
  by_cases h0 : c.key = []
  · exact .inr ⟨h0, by simp [h0], (hkeys []).mpr h0.symm⟩
  · exact .inl (by simp [h0])

end

def afterCalls (h : TxnHandle) : List Call → TxnHandle
  | [] => h
  | c :: rest =>
    match h.call c with
    | .ok (h', _) => afterCalls h' rest
    | .error _ => afterCalls h rest

def decider (opts : TxnOptions) (t : TimeStamp) (calls : List Call) : Key :=
  (newTwoPhaseCommitter (afterCalls { startTS := t, opts := opts } calls)).primary

theorem mem_keys_afterCalls {k : Key} : ∀ {h : TxnHandle} {calls : List Call}, h.Live →
    (k ∈ (afterCalls h calls).keys ↔ k ∈ h.keys ∨ ∃ c ∈ calls, c.key = k)
  | h, [], _ => by simp [afterCalls]
  | h, c :: rest, hl => by
    obtain ⟨h', cmds, hcall, hl', -, -, hkeys, -⟩ := call_ok (c := c) hl
    rw [afterCalls, hcall]
    dsimp only
    rw [mem_keys_afterCalls hl', hkeys]
    simp only [exists_mem_cons_iff, eq_comm (a := k)]
    tauto

theorem decider_smallest (opts : TxnOptions) (t : TimeStamp) {calls : List Call}
    (hne : calls ≠ []) : IsSmallest (decider opts t calls) (calls.map Call.key) := by
  have hkeys : ∀ k, k ∈ (afterCalls { startTS := t, opts := opts } calls).keys ↔
      k ∈ calls.map Call.key := by
    intro k
    rw [mem_keys_afterCalls ⟨rfl, rfl⟩]
    simp [TxnHandle.keys]
  obtain ⟨c, hc⟩ := exists_mem_of_ne_nil calls hne
  obtain ⟨hmem, hle⟩ := newTwoPhaseCommitter_primary
    (ne_nil_of_mem ((hkeys c.key).mpr (mem_map_of_mem hc)))
  exact ⟨(hkeys _).mp hmem, fun k hk => hle k ((hkeys k).mpr hk)⟩

def primaryOf : Storage.KeyAction → Key
  | .prewrite props _ => props.primary
  | .prewriteAsyncCommit props _ => props.primary
  | .onePC props _ => props.primary
  | .acquirePessimisticLock props _ => props.primary
  | .prewritePessimistic props _ => props.primary
  | _ => []

variable {muts : List Mutation}

section
variable {s : Store} {t : TimeStamp} {P k : Key} {lock : Lock}

theorem primary_of_effect {e : Storage.Effect} {a : Storage.KeyAction}
    (ha : a.isLocking = true) (he : a.effect s = some e) (hl : e.lock = some (some lock)) :
    lock.startTS = a.startTS ∧ (lock.primary = primaryOf a ∨
      ∃ old, (s a.key).lock = some old ∧ old.startTS = a.startTS ∧
        lock.primary = old.primary) := by
  have hnew : ∀ {k t conflict l}, Storage.lockEffect s k t conflict l = some e →
      lock = l.reload := by
    intro k t conflict l h
    rcases Storage.lockEffect_eq_some h with ⟨_, _, rfl⟩ | ⟨_, _, rfl⟩
    · cases hl
    · exact (Option.some.inj (Option.some.inj hl)).symm
  cases a with
  | prewrite props m =>
    obtain rfl := hnew he
    exact ⟨rfl, Or.inl rfl⟩
  | prewriteAsyncCommit props m =>
    obtain rfl := hnew he
    exact ⟨asyncLock_startTS props m, Or.inl (asyncLock_primary props m)⟩
  | acquirePessimisticLock props k =>
    obtain ⟨old, hold, ht, rfl | rfl⟩ | ⟨-, -, rfl⟩ :=
      Storage.KeyAction.acquirePessimisticLock_eq_some he
    · cases hl
      exact ⟨ht, Or.inr ⟨old, hold, ht, rfl⟩⟩
    · cases hl
    · cases hl
      exact ⟨rfl, Or.inl rfl⟩
  | prewritePessimistic props m =>
    obtain ⟨-, -, -, rfl | rfl⟩ | ⟨-, -, rfl⟩ :=
      Storage.KeyAction.prewritePessimistic_eq_some he
    · cases hl
      exact ⟨rfl, Or.inl rfl⟩
    · cases hl
    · cases hl
      exact ⟨rfl, Or.inl rfl⟩
  | _ => exact absurd ha (by simp [Storage.KeyAction.isLocking])

def LocksName (s : Store) (t : TimeStamp) (P : Key) : Prop :=
  ∀ k lock, (s k).lock = some lock → lock.startTS = t → lock.primary = P

def Names (t : TimeStamp) (P : Key) (cmd : Command) : Prop :=
  ∀ a ∈ cmd.actions, a.isLocking → a.startTS = t → primaryOf a = P

variable {cmd : Command} {t' : TimeStamp}

theorem LocksName.run (h : LocksName s t P) (hcmd : Names t P cmd) :
    LocksName (Storage.run s cmd) t P := by
  by_cases hacc : Storage.Accepted s cmd
  · intro k lock hl ht
    rcases Storage.lock_run hacc hl with ⟨hl, -⟩ | ⟨a, ha, rfl, e, he, hl⟩
    · exact h k lock hl ht
    · cases hlock : cmd.isLocking with
      | false => exact absurd hl ((Storage.KeyAction.concludes hlock ha he).lock lock)
      | true =>
        have hla : a.isLocking = true := (Command.isLocking_of_mem ha).trans hlock
        obtain ⟨hst, hp | ⟨old, hold, hot, hp⟩⟩ := primary_of_effect hla he hl
        · exact hp.trans (hcmd a ha hla (hst.symm.trans ht))
        · exact hp.trans (h _ old hold (hot.trans (hst.symm.trans ht)))
  · rwa [Storage.run_refused hacc]

theorem Names.of_not_locksFor (h : ¬LocksFor t cmd) : Names t P cmd :=
  fun a ha hla hat => absurd ⟨(Command.isLocking_of_mem ha).symm.trans hla, a, ha, hat⟩ h

theorem Names.prewriteRegion {c : TwoPhaseCommitter}
    {onePC maxTS : TimeStamp} : Names t c.primary (c.prewriteRegion muts onePC maxTS) := by
  intro a ha _ _
  unfold TwoPhaseCommitter.prewriteRegion at ha
  split at ha
  · obtain ⟨m, -, rfl⟩ := mem_map.mp ha
    rfl
  · split at ha
    · obtain ⟨m, -, rfl⟩ := mem_map.mp ha
      rfl
    · obtain ⟨m, -, rfl⟩ := mem_map.mp ha
      rfl

theorem Names.commit {keys : List Key} {c : TimeStamp} : Names t P (.commit keys t' c) := by
  intro a ha hla
  obtain ⟨k, -, rfl⟩ := List.mem_map.mp ha
  exact absurd hla (by simp [Storage.KeyAction.isLocking])

theorem names_pessimisticLock {fu : TimeStamp} {ttl : UInt64} :
    Names t P (.pessimisticLock [k] P t' fu ttl) := by
  intro a ha _ _
  obtain ⟨k, -, rfl⟩ := mem_map.mp ha
  rfl

end

/-! ### All locks name the key that is committed first -/

structure Agrees (t : TimeStamp) (P : Key) (s : State) : Prop where
  locks : LocksName s.store t P
  first : ∀ cmd, s.sent.find? isCommit = some cmd → ∃ c, cmd = .commit [P] t c

structure Inv (opts : TxnOptions) (t : TimeStamp) (P : Key) (s : State) : Prop where
  agrees : Agrees t P s
  names : ∀ cmd ∈ s.sent, Names t P cmd
  live : s.calls ≠ [] → s.handle.Live
  opts_eq : s.handle.opts = opts
  startTS_eq : s.handle.startTS = t
  final : (newTwoPhaseCommitter (afterCalls s.handle s.calls)).primary = P
  locked : opts.mode = .pessimistic → s.handle.Fixed P ∨
    s.handle.cachedPrimary = none ∧ s.handle.keys = [] ∧ ∀ c ∈ s.calls.head?, c.key = P
  committer : ∀ c, s.committer = some c → c.primary = P ∧ c.startTS = t ∧ c.opts = opts
  passed : s.passed = true → opts.try1PC = true ∨ s.sent.any isCommit = true
  single : opts.try1PC = true → (∀ k ∈ s.handle.keys, k = P) ∧ (∀ c ∈ s.calls, c.key = P) ∧
    ∀ c, s.committer = some c → ∀ m ∈ c.mutations, m.key = P

section
variable {opts : TxnOptions} {t : TimeStamp} {P : Key} {calls : List Call} {s s' : State}

theorem Inv.send {cmds : List Command} (h : Inv opts t P s) (hn : ∀ cmd ∈ cmds, Names t P cmd)
    (hf : s.sent.any isCommit = true ∨
      ∀ cmd ∈ cmds, isCommit cmd → ∃ c, cmd = .commit [P] t c) : Inv opts t P (s.send cmds) where
  agrees := by
    refine ⟨h.agrees.locks, fun cmd hcmd => ?_⟩
    rw [State.send, find?_append] at hcmd
    cases hold : s.sent.find? isCommit with
    | some cmd' =>
      rw [hold, some_or] at hcmd
      exact h.agrees.first cmd (hold.trans hcmd)
    | none =>
      rw [hold, none_or] at hcmd
      rcases hf with hf | hf
      · obtain ⟨x, hx, hxc⟩ := any_eq_true.mp hf
        exact absurd hxc (find?_eq_none.mp hold x hx)
      · exact hf cmd (mem_of_find?_eq_some hcmd) (find?_some hcmd)
  names cmd hcmd := (mem_append.mp hcmd).elim (h.names cmd) (hn cmd)
  live := h.live
  opts_eq := h.opts_eq
  startTS_eq := h.startTS_eq
  final := h.final
  locked := h.locked
  committer := h.committer
  passed hp := (h.passed hp).imp_right fun hc => by rw [State.send, any_append, hc, Bool.true_or]
  single := h.single

variable {store : Store}

theorem Inv.setStore {acked : List Command} (h : Inv opts t P s)
    (hl : LocksName store t P) : Inv opts t P { s with store := store, acked := acked } :=
  { h with agrees := ⟨hl, h.agrees.first⟩ }

theorem of_committing {request : TwoPhaseCommitter → Option Command}
    (h : s.committing request = some s') :
    ∃ c cmd, s.committer = some c ∧ request c = some cmd ∧ s' = s.send [cmd] := by
  obtain ⟨cmd, hcmd, rfl⟩ := map_eq_some_iff.mp h
  obtain ⟨c, hc, hr⟩ := bind_eq_some_iff.mp hcmd
  exact ⟨c, cmd, hc, hr, rfl⟩

theorem Inv.call {c : Call} {rest : List Call} (h : Inv opts t P s) (hc : s.calls = c :: rest) :
    ∃ h' cmds, s.handle.call c = .ok (h', cmds) ∧
      Inv opts t P ({ s with handle := h', calls := rest }.send cmds) := by
  have hl := h.live (by simp [hc])
  obtain ⟨h', cmds, hcall, hl', hst, hopts, hkeys, hpess, hopt⟩ := call_ok (c := c) hl
  refine ⟨h', cmds, hcall, ?_⟩
  have hfinal := h.final
  rw [hc, afterCalls, hcall] at hfinal
  -- either way the request names the primary, and the handle sticks to it
  have hlocked : opts.mode = .pessimistic → h'.Fixed P ∧
      cmds = [.pessimisticLock [c.key] P s.handle.startTS s.handle.startTS
        s.handle.opts.lockTTL] := by
    intro hm
    obtain ⟨rfl, rfl⟩ := hpess (by rw [h.opts_eq, hm])
    rcases h.locked hm with hfix | ⟨hnone, hkeys, hhead⟩
    · obtain ⟨hp, hfix'⟩ := Fixed.primaryKey (Fixed.buffer (c := c) hfix)
      exact ⟨hfix', by rw [hp]⟩
    · have hck : c.key = P := hhead c (by simp [hc])
      obtain ⟨hp, hfix'⟩ := primaryKey_first (c := c) hnone hkeys
      rw [hck] at hp hfix'
      exact ⟨hfix', by rw [hp]⟩
  have hnoCommit : ∀ cmd ∈ cmds, Names t P cmd ∧ isCommit cmd = false := by
    by_cases hm : opts.mode = .pessimistic
    · rw [(hlocked hm).2]
      simp only [mem_singleton, forall_eq]
      exact ⟨names_pessimisticLock, rfl⟩
    · rw [hopt (by rwa [h.opts_eq])]
      simp
  have hstate : Inv opts t P { s with handle := h', calls := rest } :=
    { h with
      agrees := ⟨h.agrees.locks, h.agrees.first⟩
      live := fun _ => hl'
      opts_eq := hopts.trans h.opts_eq
      startTS_eq := hst.trans h.startTS_eq
      final := hfinal
      locked := fun hm => .inl (hlocked hm).1
      single := fun htry => by
        obtain ⟨hk, hcalls, hm⟩ := h.single htry
        rw [hc] at hcalls
        refine ⟨fun k hk' => ?_, fun c' hc' => hcalls c' (by simp [hc']), hm⟩
        rcases (hkeys k).mp hk' with rfl | hk'
        · exact hcalls c (by simp)
        · exact hk k hk' }
  refine hstate.send (fun cmd hcmd => (hnoCommit cmd hcmd).1) (.inr fun cmd hcmd hcom => ?_)
  exact absurd hcom (by simp [(hnoCommit cmd hcmd).2])

theorem Inv.commit {h' : TxnHandle} {c : Option TwoPhaseCommitter} (h : Inv opts t P s)
    (hc : s.calls = []) (hcommit : s.handle.commit = .ok (h', c)) :
    Inv opts t P { s with handle := h', committer := c } := by
  have hfinal := h.final
  rw [hc, afterCalls] at hfinal
  unfold TxnHandle.commit at hcommit
  split at hcommit
  · cases hcommit
  split at hcommit
  · cases hcommit
  split at hcommit
  · obtain ⟨rfl, rfl⟩ := Prod.mk.inj (Except.ok.inj hcommit)
    exact
      { h with
        agrees := ⟨h.agrees.locks, h.agrees.first⟩
        live := fun hne => absurd hc hne
        final := by rw [hc]; exact hfinal
        committer := by simp
        single := fun htry => ⟨(h.single htry).1, (h.single htry).2.1, by simp⟩ }
  · obtain ⟨rfl, rfl⟩ := Prod.mk.inj (Except.ok.inj hcommit)
    refine
      { h with
        agrees := ⟨h.agrees.locks, h.agrees.first⟩
        committer := fun c hc' => ?_
        single := fun htry => ⟨(h.single htry).1, (h.single htry).2.1, fun c hc' m hm => ?_⟩ }
    · cases hc'
      exact ⟨hfinal, h.startTS_eq, h.opts_eq⟩
    · cases hc'
      exact (h.single htry).1 _ (mem_keys_of_mutation hm)

theorem Inv.commitPrimary {c : TwoPhaseCommitter} (h : Inv opts t P s) (hc : s.committer = some c)
    (commitTS : TimeStamp) :
    Inv opts t P ({ s with passed := true }.send (c.commitPrimary commitTS)) := by
  obtain ⟨rfl, rfl, rfl⟩ := h.committer c hc
  have hsent : ∀ cmd ∈ c.commitPrimary commitTS, cmd = .commit [c.primary] c.startTS commitTS := by
    intro cmd hcmd
    unfold TwoPhaseCommitter.commitPrimary at hcmd
    split at hcmd
    · exact absurd hcmd not_mem_nil
    · exact mem_singleton.mp hcmd
  have hinv := h.send (fun cmd hcmd => hsent cmd hcmd ▸ Names.commit)
    (.inr fun cmd hcmd _ => ⟨commitTS, hsent cmd hcmd⟩)
  refine { hinv with agrees := ⟨hinv.agrees.locks, hinv.agrees.first⟩, passed := fun _ => ?_ }
  by_cases htry : c.opts.try1PC = true
  · exact .inl htry
  · refine .inr ?_
    simp [State.send, TwoPhaseCommitter.commitPrimary, htry, isCommit]

theorem mem_secondaryKeys {c : TwoPhaseCommitter} {k : Key} (hk : k ∈ c.secondaryKeys) :
    k ∈ c.mutations.map Mutation.key ∧ k ≠ c.primary := by
  unfold TwoPhaseCommitter.secondaryKeys at hk
  split at hk
  · exact absurd hk not_mem_nil
  · simpa only [mem_filter, decide_eq_true_eq] using hk

theorem Inv.step {a : Action} (h : Inv opts t P s) (hs : step s a = some s') : Inv opts t P s' := by
  cases a with
  | call =>
    rw [Client.step] at hs
    cases hc : s.calls with
    | nil => simp [hc] at hs
    | cons c rest =>
      obtain ⟨h', cmds, hcall, hinv⟩ := h.call hc
      simp only [hc, hcall, some_inj] at hs
      exact hs ▸ hinv
  | commit =>
    rw [Client.step] at hs
    split at hs
    · rename_i hc hnone hcommit
      cases hs
      exact h.commit hc hcommit
    · cases hs
  | prewriteRegion muts onePC maxTS =>
    obtain ⟨c, cmd, hc, hr, rfl⟩ := of_committing hs
    obtain ⟨-, rfl⟩ := of_guard hr
    refine h.send (fun cmd hcmd => ?_) (.inr fun cmd hcmd hcom => ?_)
    · obtain rfl := mem_singleton.mp hcmd
      rw [← (h.committer c hc).1]
      exact .prewriteRegion
    · obtain rfl := mem_singleton.mp hcmd
      unfold TwoPhaseCommitter.prewriteRegion at hcom
      split at hcom
      · exact absurd hcom (by simp [isCommit])
      · split at hcom <;> exact absurd hcom (by simp [isCommit])
  | commitPrimary commitTS =>
    obtain ⟨c, hc, hr⟩ := bind_eq_some_iff.mp hs
    obtain ⟨-, rfl⟩ := of_guard hr
    exact h.commitPrimary hc commitTS
  | commitSecondaries keys commitTS =>
    obtain ⟨c, cmd, hc, hr, rfl⟩ := of_committing hs
    obtain ⟨⟨hpassed, hne, hkeys⟩, rfl⟩ := of_guard hr
    refine h.send (fun cmd hcmd => ?_) (.inl ((h.passed hpassed).resolve_left fun htry => ?_))
    · obtain rfl := mem_singleton.mp hcmd
      exact .commit
    · -- with `Try1PC` there is no key but the primary
      obtain ⟨k, hk⟩ := exists_mem_of_ne_nil keys hne
      obtain ⟨hk', hkp⟩ := mem_secondaryKeys (hkeys k hk)
      obtain ⟨m, hm, rfl⟩ := mem_map.mp hk'
      exact hkp (((h.single htry).2.2 c hc m hm).trans (h.committer c hc).1.symm)
  | deliver i =>
    obtain ⟨cmd, hcmd, rfl⟩ := map_eq_some_iff.mp hs
    exact h.setStore (h.agrees.locks.run (h.names cmd (mem_of_getElem? hcmd)))
  | other cmd =>
    obtain ⟨hno, rfl⟩ := of_guard hs
    rw [h.startTS_eq] at hno
    exact h.setStore (h.agrees.locks.run (.of_not_locksFor hno))

theorem Inv.start (hok : opts.mode = .pessimistic →
    ∀ c ∈ calls.head?, c.key = decider opts t calls)
    (hone : opts.try1PC = true → ∀ c ∈ calls, c.key = decider opts t calls) :
    Inv opts t (decider opts t calls) (system opts t calls).start where
  agrees := ⟨fun k lock h => absurd h (by simp [system, Store.empty]),
    fun cmd h => absurd h (by simp [system])⟩
  names := by simp [system]
  live _ := ⟨rfl, rfl⟩
  opts_eq := rfl
  startTS_eq := rfl
  final := rfl
  locked hm := .inr ⟨rfl, rfl, hok hm⟩
  committer := by simp [system]
  passed := by simp [system]
  single htry := ⟨by simp [system, TxnHandle.keys], hone htry, by simp [system]⟩

theorem run_pessimisticLock_empty (k p : Key) (t fu : TimeStamp) (ttl : UInt64) :
    (Storage.run Store.empty (.pessimisticLock [k] p t fu ttl) k).lock =
      some (PessimisticLockProps.lock ⟨t, fu, p, ttl⟩).reload := by
  have heff : (Storage.KeyAction.acquirePessimisticLock ⟨t, fu, p, ttl⟩ k).effect Store.empty =
      some { lock := some (some (PessimisticLockProps.lock ⟨t, fu, p, ttl⟩).reload) } := rfl
  have hacc : Storage.Accepted Store.empty (.pessimisticLock [k] p t fu ttl) := by
    intro a ha
    obtain rfl := List.mem_singleton.mp ha
    exact rfl
  rw [Storage.run_lock hacc]
  simp [Command.actions, LastWrite.cons, Storage.KeyAction.lockOn, Storage.KeyAction.key, heff]

theorem exists_lock_of_first (t : TimeStamp) (c : Call) (rest : List Call)
    (hm : opts.mode = .pessimistic) :
    ∃ s, (system opts t (c :: rest)).Reachable s ∧ ∃ lock, (s.store c.key).lock = some lock ∧
      lock.startTS = t ∧ lock.primary = c.key := by
  let h0 : TxnHandle := { startTS := t, opts := opts }
  obtain ⟨h', cmds, hcall, -, -, -, -, hpess, -⟩ := call_ok (h := h0) (c := c) ⟨rfl, rfl⟩
  obtain ⟨-, rfl⟩ := hpess hm
  rw [(primaryKey_first (h := h0) rfl rfl).1] at hcall
  let cmd : Command := .pessimisticLock [c.key] c.key t t opts.lockTTL
  have hs₁ : step (system opts t (c :: rest)).start .call =
      some { store := Store.empty, handle := h', calls := rest, sent := [cmd] } := by
    have hstart : step (system opts t (c :: rest)).start .call =
      match h0.call c with
      | .ok (h, cmds) => some (State.send
          { store := Store.empty, handle := h, calls := rest } cmds)
      | .error _ => some { store := Store.empty, handle := h0, calls := rest } := rfl
    rw [hstart, hcall]
    rfl
  exact ⟨_, StepSystem.ReachableWhen.step (a := Action.deliver 0)
    (StepSystem.ReachableWhen.step (a := Action.call) .start trivial hs₁) trivial rfl,
    _, run_pessimisticLock_empty _ _ _ _ _, rfl, rfl⟩

/-! ### A first commit of a secondary key -/

/-- A store with no record and no lock but those of one transaction. -/
structure OwnLocks (t : TimeStamp) (s : Store) : Prop where
  writes : ∀ k, (s k).writes.entries = []
  locks : ∀ k lock, (s k).lock = some lock → lock.startTS = t

theorem OwnLocks.lockEffect (h : OwnLocks t store) (k : Key) (lock : Lock) :
    ∃ e, Storage.lockEffect store k t (conflictLoop store k t conflictBound tsMax) lock = some e ∧
      e.record = none := by
  have hfree : conflictLoop store k t conflictBound tsMax = false := by
    rw [conflictLoop_eq_scan, Versions.upTo, h.writes k]
    rfl
  unfold Storage.lockEffect
  cases hl : (store k).lock with
  | none => exact ⟨_, by rw [hfree]; rfl, rfl⟩
  | some old => exact ⟨{}, if_pos (h.locks k old hl), rfl⟩

theorem OwnLocks.prewriteRegion {c : TwoPhaseCommitter}
    (h : OwnLocks t store) (hc : c.startTS = t) (hlen : c.mutations.length ≠ muts.length) :
    Storage.Accepted store (c.prewriteRegion muts 0 0) ∧
      OwnLocks t (Storage.run store (c.prewriteRegion muts 0 0)) ∧
      mutationsOf (c.prewriteRegion muts 0 0) = muts ∧
      isCommit (c.prewriteRegion muts 0 0) = false := by
  have hact : ∀ a ∈ (c.prewriteRegion muts 0 0).actions, a.isLocking = true ∧ a.startTS = t ∧
      ∃ e, a.effect store = some e ∧ e.record = none := by
    intro a ha
    rw [TwoPhaseCommitter.prewriteRegion, if_neg (by tauto)] at ha
    split at ha
    · obtain ⟨m, -, rfl⟩ := mem_map.mp ha
      exact ⟨rfl, hc, hc ▸ (hc ▸ h : OwnLocks c.startTS store).lockEffect _ _⟩
    · obtain ⟨m, -, rfl⟩ := mem_map.mp ha
      exact ⟨rfl, hc, hc ▸ (hc ▸ h : OwnLocks c.startTS store).lockEffect _ _⟩
  have hacc : Storage.Accepted store (c.prewriteRegion muts 0 0) := by
    intro a ha
    obtain ⟨-, -, e, he, -⟩ := hact a ha
    rw [he, isSome_some]
  refine ⟨hacc, ⟨fun k => ?_, fun k lock hl => ?_⟩, ?_⟩
  · refine eq_nil_iff_forall_not_mem.mpr fun q hq => ?_
    rcases Storage.mem_run hacc hq with hq | ⟨a, ha, -, e, he, hrec⟩
    · rw [h.writes k] at hq
      exact absurd hq not_mem_nil
    · obtain ⟨-, -, e', he', hnone⟩ := hact a ha
      obtain rfl := some_inj.mp (he.symm.trans he')
      rw [hnone] at hrec
      cases hrec
  · rcases Storage.lock_run hacc hl with ⟨hl, -⟩ | ⟨a, ha, -, e, he, hl⟩
    · exact h.locks k lock hl
    · obtain ⟨hla, hat, -⟩ := hact a ha
      exact (primary_of_effect hla he hl).1.trans hat
  · rw [TwoPhaseCommitter.prewriteRegion, if_neg (by tauto)]
    split <;> exact ⟨rfl, rfl⟩

theorem reachable_prewrite {c : TwoPhaseCommitter} (hs : (system opts t calls).Reachable s)
    (hc : s.committer = some c) (ht : c.startTS = t) (hown : OwnLocks t s.store)
    (hsub : ∀ m ∈ muts, m ∈ c.mutations) (hlen : c.mutations.length ≠ muts.length) :
    ∃ s' cmd, (system opts t calls).Reachable s' ∧ s'.committer = some c ∧ OwnLocks t s'.store ∧
      s'.sent = s.sent ++ [cmd] ∧ isCommit cmd = false ∧ s'.acked = cmd :: s.acked ∧
      mutationsOf cmd = muts := by
  obtain ⟨hacc, hown', hmuts, hcom⟩ := hown.prewriteRegion ht hlen
  have h₁ : step s (.prewriteRegion muts 0 0) = some (s.send [c.prewriteRegion muts 0 0]) := by
    simp only [step, State.committing, hc, bind_some, if_pos hsub, Option.map_some]
  have h₂ : step (s.send [c.prewriteRegion muts 0 0]) (.deliver s.sent.length) =
      some { s.send [c.prewriteRegion muts 0 0] with
        store := Storage.run s.store (c.prewriteRegion muts 0 0)
        acked := c.prewriteRegion muts 0 0 :: s.acked } := by
    simp [step, State.send, hacc]
  have hr : (system opts t calls).Reachable _ :=
    .step (a := .deliver s.sent.length) (.step (a := .prewriteRegion muts 0 0) hs trivial h₁) trivial h₂
  exact ⟨_, _, hr, hc, hown', rfl, hcom, rfl, hmuts⟩

theorem reachable_calls (hs : (system opts t calls).Reachable s) (hl : s.handle.Live) :
    ∃ s', (system opts t calls).Reachable s' ∧ s'.calls = [] ∧
      s'.handle = afterCalls s.handle s.calls ∧ s'.handle.Live ∧
      s'.handle.startTS = s.handle.startTS ∧ s'.handle.opts = s.handle.opts ∧
      s'.store = s.store ∧ s'.committer = s.committer ∧
      (s.sent.any isCommit = false → s'.sent.any isCommit = false) := by
  induction hc : s.calls generalizing s with
  | nil => exact ⟨s, hs, hc, rfl, hl, rfl, rfl, rfl, rfl, id⟩
  | cons c rest ih =>
    obtain ⟨h', cmds, hcall, hl', hst, hopts, -, hpess, hopt⟩ := call_ok (c := c) hl
    have hstep : step s .call = some ({ s with handle := h', calls := rest }.send cmds) := by
      simp only [step, hc, hcall]
    obtain ⟨s', hs', h0, hh, hlive, h1, h2, h3, h4, h5⟩ :=
      ih (.step (a := .call) hs trivial hstep) hl' rfl
    refine ⟨s', hs', h0, ?_, hlive, h1.trans hst, h2.trans hopts, h3, h4, fun hno => h5 ?_⟩
    · rw [hh, afterCalls, hcall]
      rfl
    · have hcmds : cmds.any isCommit = false := by
        by_cases hm : s.handle.opts.mode = .pessimistic
        · rw [(hpess hm).2]
          rfl
        · rw [hopt hm]
          rfl
      rw [State.send, any_append, hno, hcmds, Bool.or_false]

theorem exists_secondary_first (t : TimeStamp) {c₁ c₂ : Call} (htry : opts.try1PC = true)
    (h₁ : c₁ ∈ calls) (h₂ : c₂ ∈ calls) (hne : c₁.key ≠ c₂.key) :
    ∃ s, (system opts t calls).Reachable s ∧ ∃ k ts, k ≠ decider opts t calls ∧
      s.sent.find? isCommit = some (.commit [k] t ts) := by
  obtain ⟨s, hs, hcalls, hh, hl, ht, hopts, hstore, hcom, hsent⟩ :=
    reachable_calls (.start : (system opts t calls).Reachable _) ⟨rfl, rfl⟩
  let c := newTwoPhaseCommitter s.handle
  have hP : c.primary = decider opts t calls := congrArg (fun h => (newTwoPhaseCommitter h).primary) hh
  have hmem : ∀ x ∈ calls, ∃ m ∈ c.mutations, m.key = x.key := by
    intro x hx
    have hk : x.key ∈ s.handle.keys := by
      rw [hh]
      exact (mem_keys_afterCalls ⟨rfl, rfl⟩).mpr (.inr ⟨x, hx, rfl⟩)
    exact mem_map.mp (perm_keys.mem_iff.mpr hk)
  -- one of the two keys is not the primary
  obtain ⟨m₂, hm₂, hm₂P⟩ : ∃ m ∈ c.mutations, m.key ≠ c.primary := by
    obtain ⟨m₁, hm₁, hk₁⟩ := hmem c₁ h₁
    obtain ⟨m₂, hm₂, hk₂⟩ := hmem c₂ h₂
    by_cases hp : m₁.key = c.primary
    · exact ⟨m₂, hm₂, fun hp₂ => hne (hk₁.symm.trans (hp.trans (hp₂.symm.trans hk₂)))⟩
    · exact ⟨m₁, hm₁, hp⟩
  have hkeys : s.handle.keys ≠ [] := ne_nil_of_mem (mem_keys_of_mutation hm₂)
  obtain ⟨m₁, hm₁, hm₁P⟩ : ∃ m ∈ c.mutations, m.key = c.primary :=
    mem_map.mp (perm_keys.mem_iff.mpr (newTwoPhaseCommitter_primary hkeys).1)
  have hcommit : s.handle.commit = .ok (s.handle, some c) := by
    have hbuf : s.handle.membuf.isEmpty = false := by
      rw [isEmpty_eq_false_iff]
      rintro h0
      exact hkeys (by rw [TxnHandle.keys, h0, map_nil])
    simp [TxnHandle.commit, hl.1, hl.2, hbuf, c]
  have hstep : step s .commit = some { s with committer := some c } := by
    have hnone : s.committer = none := hcom
    simp only [step, hcalls, hnone, hcommit]
  have hlen : ∀ p : Mutation → Bool, (∃ m ∈ c.mutations, p m = false) →
      c.mutations.length ≠ (c.mutations.filter p).length := by
    rintro p ⟨m, hm, hp⟩ heq
    have hall := length_filter_eq_length_iff.mp heq.symm m hm
    rw [hp] at hall
    cases hall
  have hown : OwnLocks t s.store := by
    rw [hstore]
    exact ⟨fun _ => rfl, fun k lock h => absurd h (by simp [system, Store.empty])⟩
  have hsub : ∀ (p : Mutation → Bool), ∀ m ∈ c.mutations.filter p, m ∈ c.mutations :=
    fun _ _ => mem_of_mem_filter
  -- the primary's region and the other one
  obtain ⟨s₁, cmd₁, hs₁, hc₁, hown₁, hsent₁, hno₁, hack₁, hmuts₁⟩ := reachable_prewrite
    (.step (a := .commit) hs trivial hstep) rfl ht hown (hsub fun m => m.key = c.primary)
    (hlen _ ⟨m₂, hm₂, by simpa using hm₂P⟩)
  obtain ⟨s₂, cmd₂, hs₂, hc₂, -, hsent₂, hno₂, hack₂, hmuts₂⟩ := reachable_prewrite
    hs₁ hc₁ ht hown₁ (hsub fun m => m.key ≠ c.primary)
    (hlen _ ⟨m₁, hm₁, by simpa using hm₁P⟩)
  have hdone : ∀ m ∈ c.mutations, ∃ cmd ∈ s₂.acked, m ∈ mutationsOf cmd := by
    intro m hm
    rw [hack₂, hack₁]
    by_cases hp : m.key = c.primary
    · exact ⟨cmd₁, by simp, by rw [hmuts₁]; exact mem_filter.mpr ⟨hm, by simpa using hp⟩⟩
    · exact ⟨cmd₂, by simp, by rw [hmuts₂]; exact mem_filter.mpr ⟨hm, by simpa using hp⟩⟩
  have hnothing : c.commitPrimary tsMax = [] := if_pos ⟨by decide, by rw [← htry]; exact congrArg _ hopts⟩
  have h₃ : step s₂ (.commitPrimary tsMax) = some { s₂ with passed := true } := by
    simp only [step, hc₂, bind_some, if_pos hdone, hnothing, State.send, append_nil]
  have hsec : m₂.key ∈ c.secondaryKeys := by
    have hlong : ¬ c.mutations.length ≤ 1 := by
      intro hle
      have h12 : m₁ = m₂ := by
        obtain ⟨m, hm⟩ := length_eq_one_iff.mp (le_antisymm hle (length_pos_of_mem hm₁))
        rw [hm] at hm₁ hm₂
        exact (mem_singleton.mp hm₁).trans (mem_singleton.mp hm₂).symm
      exact hm₂P (h12 ▸ hm₁P)
    rw [TwoPhaseCommitter.secondaryKeys, if_neg (fun h => hlong h.2)]
    exact mem_filter.mpr ⟨mem_map_of_mem hm₂, by simpa using hm₂P⟩
  have h₄ : step { s₂ with passed := true } (.commitSecondaries [m₂.key] tsMax) =
      some (State.send { s₂ with passed := true } [.commit [m₂.key] c.startTS tsMax]) := by
    simp only [step, State.committing, hc₂, bind_some]
    rw [if_pos ⟨trivial, by simp, by simpa using hsec⟩]
    rfl
  refine ⟨_, .step (a := .commitSecondaries [m₂.key] tsMax)
    (.step (a := .commitPrimary tsMax) hs₂ trivial h₃) trivial h₄, m₂.key, tsMax, hP ▸ hm₂P, ?_⟩
  have hnone : s₂.sent.find? isCommit = none := by
    have h0 := hsent rfl
    rw [find?_eq_none]
    intro cmd hcmd
    rw [hsent₂, hsent₁, mem_append, mem_append, mem_singleton, mem_singleton] at hcmd
    rcases hcmd with (hcmd | rfl) | rfl
    · exact (any_eq_false.mp h0) cmd hcmd
    · simp [hno₁]
    · simp [hno₂]
  rw [State.send, find?_append, hnone, none_or]
  exact congrArg (fun t => some (Command.commit [m₂.key] t tsMax)) ht

/-- **When all locks name the key that is committed first**: the transaction is
optimistic or its first call is for its smallest key, and it does not ask for one-phase commit
or has one key only. -/
theorem agrees_iff (opts : TxnOptions) (t : TimeStamp) (calls : List Call) :
    (∀ s, (system opts t calls).Reachable s → Agrees t (decider opts t calls) s) ↔
      (opts.mode = .optimistic ∨ ∀ first ∈ calls.head?, ∀ c ∈ calls, first.key ≤ c.key) ∧
        (opts.try1PC = false ∨ ∀ c ∈ calls, ∀ c' ∈ calls, c.key = c'.key) := by
  constructor
  · intro h
    refine ⟨or_iff_not_imp_left.mpr fun hm => ?_, or_iff_not_imp_left.mpr fun htry c hc c' hc' => ?_⟩
    · have hm' : opts.mode = .pessimistic := by
        cases hmode : opts.mode
        · exact absurd hmode hm
        · rfl
      cases calls with
      | nil => simp
      | cons first rest =>
        obtain ⟨s, hs, lock, hlock, ht, hp⟩ := exists_lock_of_first t first rest hm'
        have hfirst : first.key = decider opts t (first :: rest) :=
          hp.symm.trans ((h s hs).locks _ lock hlock ht)
        rintro c' hc' c hc
        obtain rfl : first = c' := by simpa using hc'
        rw [hfirst]
        exact (decider_smallest _ _ (by simp)).2 _ (mem_map_of_mem hc)
    · by_contra hne
      obtain ⟨s, hs, k, ts, hk, hfirst⟩ :=
        exists_secondary_first t (by simpa using htry) hc hc' hne
      obtain ⟨ts', heq⟩ := (h s hs).first _ hfirst
      cases heq
      exact hk rfl
  · rintro ⟨hcond, hone⟩ s hs
    have hok : opts.mode = .pessimistic →
        ∀ c ∈ calls.head?, c.key = decider opts t calls := by
      intro hm c hc
      rcases hcond with hcond | hcond
      · exact absurd (hm.symm.trans hcond) (by simp)
      · have hmem : c ∈ calls := mem_of_mem_head? hc
        refine IsSmallest.unique ⟨mem_map_of_mem hmem, fun k hk => ?_⟩
          (decider_smallest _ _ (ne_nil_of_mem hmem))
        obtain ⟨c', hc', rfl⟩ := mem_map.mp hk
        exact hcond c hc c' hc'
    have hsingle : opts.try1PC = true → ∀ c ∈ calls, c.key = decider opts t calls := by
      intro htry c hc
      obtain ⟨c', hc', hk⟩ := mem_map.mp (decider_smallest opts t
        (ne_nil_of_mem hc)).1
      rw [← hk]
      exact hone.resolve_left (by simp [htry]) c hc c' hc'
    exact (hs.invariant (P := Inv opts t (decider opts t calls)) (Inv.start hok hsingle)
      fun _ _ _ h _ hstep => h.step hstep).agrees

end

def descendingCalls : List Call := [.set [2] [7], .set [1] [7]]

def descendingRun : List Action :=
  [.call, .deliver 0, .call, .deliver 1, .commit,
    .prewriteRegion [{ op := .put, key := [1], value := some [7] },
      { op := .put, key := [2], value := some [7] }] 0 0, .deliver 2,
    .commitPrimary 9, .deliver 3]

/-- **The lock names a key that decides nothing**: the first commit was for `[1]`, and the
lock that is left on `[2]` names `[2]`. -/
theorem lock_names_secondary : ∃ s,
    (system { mode := .pessimistic } 5 descendingCalls).Reachable s ∧
      s.sent.find? isCommit = some (.commit [[1]] 5 9) ∧
      (∃ lock, (s.store [2]).lock = some lock ∧ lock.startTS = 5 ∧ lock.primary = [2]) ∧
      ¬Agrees 5 (decider { mode := .pessimistic } 5 descendingCalls) s := by
  have htest : ((system { mode := .pessimistic } 5 descendingCalls).runFrom
      (system { mode := .pessimistic } 5 descendingCalls).start descendingRun).any (fun s =>
        (s.sent.find? isCommit).any (fun
          | .commit ks t c => decide (ks = [[1]] ∧ t = 5 ∧ c = 9)
          | _ => false) &&
        decide (((s.store [2]).lock.map fun l => (l.startTS, l.primary)) = some (5, [2]))) := by
    decide +kernel
  cases hs : (system { mode := .pessimistic } 5 descendingCalls).runFrom
      (system { mode := .pessimistic } 5 descendingCalls).start descendingRun with
  | none =>
    rw [hs] at htest
    cases htest
  | some s =>
    rw [hs] at htest
    obtain ⟨hfirst, hlock⟩ := (Bool.and_eq_true _ _).mp htest
    obtain ⟨lock, hlock, hp⟩ := map_eq_some_iff.mp (of_decide_eq_true hlock)
    obtain ⟨ht, hp⟩ := Prod.mk.inj hp
    obtain ⟨cmd, hcmd, hfirst⟩ := (any_eq_true _ _).mp hfirst
    cases cmd with
    | commit ks t c =>
      obtain ⟨rfl, rfl, rfl⟩ := of_decide_eq_true hfirst
      refine ⟨s, reachable_of_run .start hs, hcmd, ⟨lock, hlock, ht, hp⟩, fun h => ?_⟩
      have hdecider : decider { mode := .pessimistic } 5 descendingCalls = [1] := rfl
      have hname := h.locks [2] lock hlock ht
      rw [hp, hdecider] at hname
      exact absurd hname (by decide)
    | _ => cases hfirst

end Client
