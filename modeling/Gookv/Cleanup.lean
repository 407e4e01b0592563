/-
Cleaning up a lock, and the transaction it belongs to.
-/
import Gookv.Committer
import Gookv.TxnRuns

open Txntypes Mvcc Txn Storage
open Committer (HasCommitRecord)

namespace Cleanup

open KeyAction

structure Cleaned where
  key : Key
  startTS : TimeStamp
  primary : Key
  deriving DecidableEq

structure State where
  store : Store
  cleaned : List Cleaned

def newlyCleaned (s : Store) (cmd : Command) : List Cleaned :=
  match cmd with
  | .cleanup k t | .cleanupModifies k t =>
    match lockOf s k t with
    | some lock =>
      if (run s cmd k).writes.get t = some (rollbackWrite t) then [⟨k, t, lock.primary⟩] else []
    | none => []
  | _ => []

def system : StepSystem State Command where
  start := ⟨Store.empty, []⟩
  step s cmd := some ⟨run s.store cmd, newlyCleaned s.store cmd ++ s.cleaned⟩

def NotSplit (s : State) : Prop :=
  ∀ x ∈ s.cleaned, x.key ≠ x.primary →
    lockOf s.store x.primary x.startTS = none ∧ ¬HasCommitRecord s.store x.primary x.startTS

/-- A cleanup of a secondary comes when the lock of its primary is gone. -/
def primaryUnlocked (s : Store) : Command → Bool
  | .cleanup k t | .cleanupModifies k t =>
    t ≠ 0 ∧ (lockOf s k t).all fun lock => lock.primary = k ∨ lockOf s lock.primary t = none
  | _ => true

def Decided (s : State) (cmd : Command) : Prop :=
  Timely s.store cmd ∧ primaryUnlocked s.store cmd ∧
    ∀ a ∈ cmd.actions, a.begins s.store → ∀ x ∈ s.cleaned, x.key ≠ x.primary →
      ¬(x.primary = a.key ∧ x.startTS = a.startTS)

instance (s : State) (cmd : Command) : Decidable (Decided s cmd) :=
  inferInstanceAs (Decidable (_ ∧ _ ∧ ∀ a ∈ _, _))

/-! ### The invariant -/

structure Inv (s : State) : Prop where
  rows : ∀ k, RowOk (s.store k)
  notSplit : NotSplit s

def Gone (s : Store) (p : Key) (t : TimeStamp) : Prop :=
  lockOf s p t = none ∧ ¬HasCommitRecord s p t

variable {cmd : Command} {s : Store} {t : TimeStamp} {p : Key}

theorem Gone.run (hok : ∀ k, RowOk (s k)) (ht : Timely s cmd) (h : Gone s p t)
    (hfinal : ∀ a ∈ cmd.actions, a.begins s → ¬(p = a.key ∧ t = a.startTS)) :
    Gone (run s cmd) p t := by
  by_cases hacc : Accepted s cmd
  swap
  · rwa [run_refused hacc]
  have hstays : ∀ a ∈ cmd.actions, a.key = p → a.startTS = t → ∀ e, a.effect s = some e →
      ¬e.Advances := by
    rintro a ha rfl rfl e he hadv
    rcases begins_or_held he hadv with hb | hl
    · exact hfinal a ha hb ⟨rfl, rfl⟩
    · exact hl h.1
  constructor
  · rw [lockOf_eq_none]
    intro lock hl hlt
    rcases lock_run hacc hl with ⟨hold, -⟩ | ⟨a, ha, hk, e, he, hlock⟩
    · exact lockOf_eq_none.mp h.1 lock hold hlt
    · obtain ⟨hlt', -⟩ := (a.fits hok (ht a ha) he).locks lock hlock
      exact hstays a ha hk (hlt'.symm.trans hlt) e he (.inl ⟨lock, hlock⟩)
  · rintro ⟨q, hq, hqt, hw⟩
    rcases mem_run hacc hq with hold | ⟨a, ha, hk, e, he, hrec⟩
    · exact h.2 ⟨q, hold, hqt, hw⟩
    · obtain ⟨hst, -⟩ := (a.fits hok (ht a ha) he).writes q.1 q.2 hrec
      exact hstays a ha hk (hst.symm.trans hqt) e he (.inr ⟨q.1, q.2, hrec, hw⟩)

theorem not_mark_of_resolve {c : TimeStamp} {k : Key} {e : Effect}
    (hc : c ≠ 0) (he : resolveEffect s k t c = some e) : e.record ≠ some (t, rollbackWrite t) := by
  intro hrec
  rcases resolveEffect_eq_some he with ⟨-, rfl⟩ | ⟨-, ⟨-, he⟩ | ⟨rfl, -⟩⟩
  · cases hrec
  · obtain ⟨lock, -, -, -, hrec'⟩ := commitEffect_eq_some he
    rw [hrec] at hrec'
    split at hrec'
    · cases hrec'
    · have hw := (Prod.mk.inj (Option.some.inj hrec')).2
      exact commitWrite_writeType_ne lock (congrArg Write.writeType hw).symm
  · exact hc rfl

theorem mem_newlyCleaned {x : Cleaned} (hok : ∀ k, RowOk (s k)) (hx : x ∈ newlyCleaned s cmd) :
    (∀ a ∈ cmd.actions, a.key = x.key) ∧ (checkTxnStatus s x.primary x.startTS).commitTS = 0 ∧
      (primaryUnlocked s cmd → x.startTS ≠ 0 ∧
        (x.primary = x.key ∨ lockOf s x.primary x.startTS = none)) := by
  -- the two commands differ in the operations of a rollback only
  have hcase : ∀ {a : KeyAction} {k t lock}, cmd.actions = [a] → a.key = k →
      lockOf s k t = some lock → (run s cmd k).writes.get t = some (rollbackWrite t) →
      (∀ e, (checkTxnStatus s lock.primary t).commitTS ≠ 0 → a.effect s = some e →
        resolveEffect s k t (checkTxnStatus s lock.primary t).commitTS = some e) →
      (checkTxnStatus s lock.primary t).commitTS = 0 := by
    intro a k t lock hact hak hl hget heff
    by_contra hc
    have hq : (t, rollbackWrite t) ∈ (run s cmd k).writes.entries :=
      Versions.get_eq_some_iff.mp hget
    have hn := (hok k).noRecord_of_lockOf hl
    by_cases hacc : Accepted s cmd
    · rcases mem_run hacc hq with hold | ⟨b, hb, -, e, he, hrec⟩
      · exact hn _ hold rfl
      · rw [hact, List.mem_singleton] at hb
        subst hb
        exact not_mark_of_resolve hc (heff e hc he) hrec
    · rw [run_refused hacc] at hq
      exact hn _ hq rfl
  cases cmd with
  | cleanup k t | cleanupModifies k t =>
    rw [newlyCleaned] at hx
    cases hl : lockOf s k t with
    | none => simp [hl] at hx
    | some lock =>
      simp only [hl] at hx
      split at hx
      · rename_i hget
        obtain rfl := List.mem_singleton.mp hx
        refine ⟨by simp [Command.actions, key], hcase rfl rfl hl hget ?_, ?_⟩
        · intro e hc he
          simpa [effect, key, hl, hc] using he
        · intro h
          simpa [primaryUnlocked, hl] using h
      · cases hx
  | _ => exact absurd hx (by simp [newlyCleaned])

theorem gone_of_status (hok : RowOk (s p)) (ht : t ≠ 0)
    (hl : lockOf s p t = none) (hst : (checkTxnStatus s p t).commitTS = 0) : Gone s p t := by
  refine ⟨hl, ?_⟩
  rintro ⟨q, hq, hqt, hw⟩
  rw [checkTxnStatus, filter_loadLock, hl] at hst
  cases hr : getTxnCommitRecord s p t with
  | none => exact hok.noRecord hr q hq hqt
  | some q' =>
    obtain ⟨hq', hqt'⟩ := mem_of_getTxnCommitRecord hr
    obtain rfl := hok.unique q' hq' q hq (hqt'.trans hqt.symm)
    -- the record stands at a timestamp from the start of the transaction on
    have hle := hok.le q' hq'
    simp only [hr, TxnStatus.ofRecord, hw, if_false] at hst
    rw [hqt, hst] at hle
    exact ht (le_antisymm hle UInt64.zero_le)

theorem Inv.step {s : State} (h : Inv s) (hd : Decided s cmd) :
    Inv ⟨run s.store cmd, newlyCleaned s.store cmd ++ s.cleaned⟩ := by
  obtain ⟨ht, hp, hfinal⟩ := hd
  refine ⟨RowOk.run h.rows ht, fun x hx hne => ?_⟩
  rcases List.mem_append.mp hx with hnew | hold
  · obtain ⟨hkeys, hst, hprim⟩ := mem_newlyCleaned h.rows hnew
    obtain ⟨ht0, hl⟩ := hprim hp
    have hgone : Gone s.store x.primary x.startTS :=
      gone_of_status (h.rows _) ht0 (hl.resolve_left (Ne.symm hne)) hst
    -- the cleanup itself is on the secondary
    refine hgone.run h.rows ht fun a ha _ heq => hne ?_
    rw [heq.1, hkeys a ha]
  · exact Gone.run h.rows ht (h.notSplit x hold hne) fun a ha hb => hfinal a ha hb x hold hne

/-- **A cleanup never splits a transaction** in runs that clean up the secondaries of
decided transactions only. -/
theorem notSplit_of_decided {s : State} (h : system.ReachableWhen Decided s) : NotSplit s := by
  have hinv : Inv s := by
    refine h.invariant ⟨fun _ => RowOk.empty, by simp [NotSplit, system]⟩ ?_
    intro s s' cmd hinv hd hs
    cases hs
    exact hinv.step hd
  exact hinv.notSplit

def twoPuts : List Mutation := [{ op := .put, key := [1], value := some [7] },
  { op := .put, key := [2], value := some [8] }]

def decidedRun : List Command :=
  [.prewrite twoPuts [1] 5 100, .checkTxnStatusWithCleanup [1] 5 tsMax true, .cleanup [2] 5]

theorem notSplit_decidedRun : ∃ s, system.ReachableWhen Decided s ∧
    s.cleaned = [⟨[2], 5, [1]⟩] ∧ NotSplit s := by
  obtain ⟨s, hs, hc⟩ : ∃ s, system.runWhen Decided system.start decidedRun = some s ∧
      s.cleaned = [⟨[2], 5, [1]⟩] := ⟨_, rfl, rfl⟩
  have hr := StepSystem.reachableWhen_of_run .start hs
  exact ⟨s, hr, hc, notSplit_of_decided hr⟩

def splitRun : List Command :=
  [.prewrite twoPuts [1] 5 100, .cleanup [2] 5, .commit [[1]] 5 6]

theorem split_reachable : ∃ s, system.Reachable s ∧ HasCommitRecord s.store [1] 5 ∧
    (5, rollbackWrite 5) ∈ (s.store [2]).writes.entries ∧ ¬NotSplit s := by
  obtain ⟨s, hs, hcommit, hrb, hcl⟩ : ∃ s, system.runFrom system.start splitRun = some s ∧
      HasCommitRecord s.store [1] 5 ∧ (5, rollbackWrite 5) ∈ (s.store [2]).writes.entries ∧
      (⟨[2], 5, [1]⟩ : Cleaned) ∈ s.cleaned := ⟨_, rfl, by decide, by decide, by decide⟩
  exact ⟨s, StepSystem.reachable_of_run .start hs, hcommit, hrb,
    fun h => (h _ hcl (by decide)).2 hcommit⟩

end Cleanup
