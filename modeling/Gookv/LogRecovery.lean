/-
Restarting a Raft log storage.
-/
import Gookv.LogAnswers

namespace Raftstore

open List PeerStorage StepSystem Table

namespace LogRecovery

inductive StorageKind
  | peer
  | pd
  deriving DecidableEq

namespace StorageKind

def new : StorageKind → PeerStorage
  | peer => PeerStorage.new
  | pd => PDRaftStorage.new

def recover : StorageKind → RaftDisk → PeerStorage
  | peer => PeerStorage.recoverFromEngine
  | pd => PDRaftStorage.recoverFromEngine

def read : StorageKind → RaftDisk → ℕ → ℕ → Except StorageError (List Entry)
  | peer => readEntriesFromEngine
  | pd => PDRaftStorage.readEntriesFromEngine

def entryAt (kind : StorageKind) (size : Entry → ℕ) (disk : RaftDisk) (s : PeerStorage) (i : ℕ) :
    Except StorageError (List Entry) :=
  s.entriesWith (kind.read disk) size i (i + 1) 0

end StorageKind

inductive Boot
  | peer (boot : PeerBoot)
  | pd
  deriving DecidableEq

def Boot.kind : Boot → StorageKind
  | peer _ => .peer
  | pd => .pd

def Boot.storage : Boot → PeerStorage
  | peer boot => boot.storage
  | pd => PeerStorage.bootstrap

def Boot.disk : Boot → RaftDisk
  | peer boot => boot.disk
  | pd => {}

structure Recovers (kind : StorageKind) (size : Entry → ℕ) (disk : RaftDisk) (s : PeerStorage)
    (L : LogicalLog Entry) : Prop where
  lastIndex : (kind.recover disk).lastIndex = s.lastIndex
  hardState : (kind.recover disk).hardState = s.hardState
  entries : ∀ i, s.applyState.truncatedIndex < i →
    kind.entryAt size disk (kind.recover disk) i = kind.entryAt size disk s i
  replaced : ∀ i e, s.applyState.truncatedIndex < i →
    kind.entryAt size disk (kind.recover disk) i = .ok [e] → L.entry i = some e

inductive Action
  | save (rd : Ready) (path : SavePath)
  | restart

def Started (kind : StorageKind) (disk : RaftDisk) (s : PeerStorage) : Prop :=
  disk.log.toList ≠ [] ∨ s.lastIndex = kind.new.lastIndex

instance (kind : StorageKind) (disk : RaftDisk) (s : PeerStorage) :
    Decidable (Started kind disk s) :=
  inferInstanceAs (Decidable (_ ∨ _))

def UsesPath : StorageKind → SavePath → Prop
  | .pd, .batched _ _ => False
  | _, _ => True

instance : (kind : StorageKind) → (path : SavePath) → Decidable (UsesPath kind path)
  | .pd, .batched _ _ => isFalse id
  | .pd, .inline | .peer, .inline | .peer, .batched _ _ => isTrue trivial

def step (kind : StorageKind) (r : ℕ) (s : LogState) : Action → Option LogState
  | .save rd path =>
    if rd.Allowed s.log ∧ path.Valid r ∧ UsesPath kind path ∧
        (rd.entries = [] → Started kind (s.cf r) s.storage) then
      some (s.save r rd path)
    else none
  | .restart =>
    if Started kind (s.cf r) s.storage then some { s with storage := kind.recover (s.cf r) }
    else none

def start (boot : Boot) (others : RaftCF) (r : ℕ) : LogState where
  cf := Function.update others r boot.disk
  storage := boot.storage
  log := boot.storage.startLog

def system (boot : Boot) (others : RaftCF) (r : ℕ) : StepSystem LogState Action :=
  ⟨start boot others r, step boot.kind r⟩

def Grows (s : LogState) : Action → Prop
  | .save rd _ => ∀ l, rd.entries.getLast? = some l → s.log.lastIndex ≤ l.index
  | .restart => True

variable {kind : StorageKind} {disk : RaftDisk} {s : PeerStorage} {L : LogicalLog Entry}
  {p : ℕ × Entry}

theorem applyState_recoverLog (s : PeerStorage) (disk : RaftDisk) :
    (s.recoverLog disk).applyState = s.applyState := by
  unfold recoverLog
  dsimp only
  split <;> rfl

theorem applyState_recover (disk' : RaftDisk) (h : disk'.applyState = disk.applyState) :
    (kind.recover disk').applyState = (kind.recover disk).applyState := by
  cases kind with
  | peer =>
    show disk'.applyState.getD (new.recoverLog disk').applyState =
      disk.applyState.getD (new.recoverLog disk).applyState
    rw [applyState_recoverLog, applyState_recoverLog, h]
  | pd =>
    show (PDRaftStorage.new.recoverLog disk').applyState =
      (PDRaftStorage.new.recoverLog disk).applyState
    rw [applyState_recoverLog, applyState_recoverLog]

theorem recover_eq (kind : StorageKind) (disk : RaftDisk) : kind.recover disk =
      { kind.new.recoverLog disk with applyState := (kind.recover disk).applyState } := by
  cases kind <;> rfl

theorem foldl_max_index (es : List Entry) (m : ℕ) : m ≤ es.foldl (fun m e => max m e.index) m ∧
      ∀ e ∈ es, e.index ≤ es.foldl (fun m e => max m e.index) m := by
  induction es generalizing m with
  | nil => exact ⟨le_rfl, fun e he => absurd he (by simp)⟩
  | cons x es ih =>
    obtain ⟨hm, hall⟩ := ih (max m x.index)
    rw [foldl_cons]
    refine ⟨(le_max_left _ _).trans hm, fun e he => ?_⟩
    rcases mem_cons.mp he with rfl | he
    · exact (le_max_right _ _).trans hm
    · exact hall e he

def scanned (disk : RaftDisk) : List Entry := disk.log.toList.map Prod.snd

theorem scanned_getLast? (h : disk.log.toList.getLast? = some p) :
    (scanned disk).getLast? = some p.2 := by
  rw [scanned, getLast?_map, h]
  rfl

theorem recover_of_mem {e : Entry} (kind : StorageKind) (he : e ∈ scanned disk)
    (hpos : 0 < e.index) :
    (kind.recover disk).entries = (scanned disk).drop ((scanned disk).length - maxCacheSize) ∧
      ∀ x ∈ scanned disk, x.index ≤ (kind.recover disk).persistedLastIndex := by
  have hmax := (foldl_max_index (scanned disk) 0).2
  have hlog : kind.new.recoverLog disk =
      { kind.new with
        hardState := disk.hardState.getD kind.new.hardState
        persistedLastIndex := (scanned disk).foldl (fun m e => max m e.index) 0
        entries := (scanned disk).drop ((scanned disk).length - maxCacheSize) } := by
    unfold recoverLog
    dsimp only
    rw [← scanned, if_pos (hpos.trans_le (hmax e he))]
  rw [recover_eq, hlog]
  dsimp only
  exact ⟨rfl, hmax⟩

theorem recover_of_nil (kind : StorageKind) (h : disk.log.toList = []) :
    (kind.recover disk).entries = [] ∧
      (kind.recover disk).persistedLastIndex = kind.new.lastIndex := by
  have hlog : kind.new.recoverLog disk =
      { kind.new with hardState := disk.hardState.getD kind.new.hardState } := by
    unfold recoverLog
    rw [h]
    rfl
  rw [recover_eq, hlog]
  cases kind <;> exact ⟨rfl, rfl⟩

theorem hardState_recover (kind : StorageKind) (disk : RaftDisk) :
    (kind.recover disk).hardState = disk.hardState.getD {} := by
  have hlog : ∀ s : PeerStorage, (s.recoverLog disk).hardState = disk.hardState.getD s.hardState := by
    intro s
    unfold recoverLog
    dsimp only
    split <;> rfl
  rw [recover_eq]
  show (kind.new.recoverLog disk).hardState = _
  rw [hlog]
  cases kind <;> rfl

theorem lastIndex_recover (hp : disk.log.toList.getLast? = some p)
    (hpos : 0 < p.2.index) : (kind.recover disk).lastIndex = p.2.index := by
  have hlast := scanned_getLast? hp
  have hmem : p.2 ∈ scanned disk := mem_of_getLast? hlast
  have hlen : 0 < (scanned disk).length := length_pos_of_mem hmem
  rw [lastIndex, (recover_of_mem kind hmem hpos).1, getLast?_drop,
    if_neg (by rw [maxCacheSize]; omega), hlast]

/-! ### Storage and engine in step -/

structure Synced (kind : StorageKind) (disk : RaftDisk) (s : PeerStorage)
    (L : LogicalLog Entry) : Prop extends Backs disk s L where
  bound : ∀ i, disk.log.get i ≠ none → 0 < i ∧ i ≤ L.lastIndex
  convex : ∀ i j, disk.log.get i ≠ none → i ≤ j → j ≤ L.lastIndex → disk.log.get j ≠ none
  hard : disk.hardState.getD {} = s.hardState
  truncated : (kind.recover disk).applyState.truncatedIndex = s.applyState.truncatedIndex ∧
    (kind.recover disk).applyState.truncatedTerm = s.applyState.truncatedTerm

section
variable (h : Synced kind disk s L)
include h

theorem Synced.consecutive_scanned (hne : disk.log.toList ≠ []) :
    ∃ first, Consecutive first (scanned disk) ∧
      first + (scanned disk).length = L.lastIndex + 1 ∧ 0 < first := by
  classical
  have hex : ∃ k, disk.log.get k ≠ none := by
    by_contra hall
    push Not at hall
    exact hne (toList_eq_nil_iff.mpr hall)
  let first := Nat.find hex
  have hfirst : disk.log.get first ≠ none := Nat.find_spec hex
  have hbound := h.bound first hfirst
  have hkeys : disk.log.toList.map Prod.fst =
      range' first (L.lastIndex + 1 - first) := by
    apply toList_of_interval
    intro k
    constructor
    · intro hk
      have := (h.bound k hk).2
      exact ⟨Nat.find_min' hex hk, by omega⟩
    · rintro ⟨hle, hlt⟩
      exact h.convex first k hfirst hle (by omega)
  have hlen : (scanned disk).length = L.lastIndex + 1 - first := by
    have := congrArg length hkeys
    rwa [length_map, length_range', ← length_map Prod.snd] at this
  refine ⟨first, ?_, by omega, hbound.1⟩
  -- an entry is stored under its own index
  rw [Consecutive, scanned, map_map]
  have hindex : disk.log.toList.map (Entry.index ∘ Prod.snd) = disk.log.toList.map Prod.fst := by
    apply map_congr_left
    rintro ⟨k, e⟩ hmem
    exact h.indexed k e (mem_toList.mp hmem)
  rw [hindex, hkeys, length_map, ← hlen, scanned, length_map]

theorem mem_scanned {e : Entry} (he : e ∈ scanned disk) : disk.log.get e.index = some e := by
  obtain ⟨⟨k, e'⟩, hmem, rfl⟩ := mem_map.mp he
  have hget := mem_toList.mp hmem
  rwa [h.indexed k e' hget]

theorem Synced.backs_recover (hstarted : Started kind disk s) :
    Backs disk (kind.recover disk) L := by
  have htrunc := h.truncated.1.trans h.truncatedIndex
  have hterm := h.truncated.2.trans h.truncatedTerm
  by_cases hnil : disk.log.toList = []
  · -- nothing in the engine: a new storage, whose last index is that of the log
    have hlast : s.lastIndex = kind.new.lastIndex := hstarted.resolve_left (not_not.mpr hnil)
    rw [h.last] at hlast
    obtain ⟨hentries, hhigh⟩ := recover_of_nil kind hnil
    refine ⟨htrunc, hterm, ?_, h.stored, h.indexed, ⟨0, ?_⟩, ?_, ?_⟩
    · rw [lastIndex, hentries, hlast, ← hhigh]
      rfl
    · rw [hentries]
      rfl
    · rw [hentries]
      exact fun e he => absurd he (by simp)
    · rw [hlast, hhigh]
  · obtain ⟨first, hcons, hlen, hpos⟩ := h.consecutive_scanned hnil
    obtain ⟨p, hp⟩ := Option.ne_none_iff_exists'.mp (mt getLast?_eq_none_iff.mp hnil)
    have hlast := scanned_getLast? hp
    have hmem : p.2 ∈ scanned disk := mem_of_getLast? hlast
    have hidx : p.2.index = L.lastIndex := by
      have := hcons.getLast? hlast
      omega
    have hpos' : 0 < p.2.index := by
      have := (hcons.mem_bounds hmem).1
      omega
    obtain ⟨hentries, hhigh⟩ := recover_of_mem kind hmem hpos'
    refine ⟨htrunc, hterm, ?_, h.stored, h.indexed, ?_, ?_, ?_⟩
    · rw [lastIndex_recover hp hpos', hidx]
    · rw [hentries]
      exact ⟨_, hcons.drop _⟩
    · rw [hentries]
      exact fun e he _ => mem_scanned h (mem_of_mem_drop he)
    · rw [← hidx]
      exact hhigh p.2 hmem

theorem Synced.recover (hstarted : Started kind disk s) : Synced kind disk (kind.recover disk) L :=
  ⟨h.backs_recover hstarted, h.bound, h.convex, (hardState_recover kind disk).symm, rfl, rfl⟩

end

theorem read_eq {lo hi : ℕ} (h : Backs disk s L) (kind : StorageKind)
    (hlo : L.truncatedIndex < lo) (hle : lo ≤ hi) (hhi : hi ≤ L.lastIndex + 1) :
    kind.read disk lo hi = .ok (L.slice lo hi) := by
  cases kind with
  | peer => exact h.read hlo hle hhi
  | pd => exact h.readPD hlo hle hhi

theorem entryAt_eq {i : ℕ} (h : Backs disk s L) (kind : StorageKind) (size : Entry → ℕ)
    (hi : L.truncatedIndex < i) : kind.entryAt size disk s i =
      if i ≤ L.lastIndex then .ok (L.slice i (i + 1)) else .error .unavailable := by
  rw [StorageKind.entryAt]
  split
  · rw [h.entriesWith_eq (read_eq h kind hi (by omega) (by omega)) size 0 hi (by omega) (by omega)]
    rfl
  · rw [entriesWith, if_neg (by omega),
      if_neg (by rw [h.firstIndex, LogicalLog.firstIndex]; omega), if_pos (by rw [h.last]; omega)]

theorem Synced.recovers (h : Synced kind disk s L) (hstarted : Started kind disk s)
    (size : Entry → ℕ) : Recovers kind size disk s L := by
  have h' := h.backs_recover hstarted
  refine ⟨h'.last.trans h.last.symm, (hardState_recover kind disk).trans h.hard, ?_, ?_⟩
  · intro i hi
    rw [h.truncatedIndex] at hi
    rw [entryAt_eq h' kind size hi, entryAt_eq h.toBacks kind size hi]
  · intro i e hi he
    rw [h.truncatedIndex] at hi
    rw [entryAt_eq h' kind size hi] at he
    split at he
    · rename_i hle
      obtain ⟨x, hx, -⟩ := h.stored i hi hle
      rw [LogicalLog.slice_singleton hx] at he
      cases he
      exact hx
    · cases he

/-! ### Runs -/

theorem synced_start (boot : Boot) (others : RaftCF) (r : ℕ) :
    Synced boot.kind ((start boot others r).cf r) (start boot others r).storage
      (start boot others r).log := by
  have hdisk : (start boot others r).cf r = boot.disk := by
    show Function.update others r boot.disk r = boot.disk
    rw [Function.update_self]
  have hlog : boot.disk.log = empty := by rcases boot with (_ | _ | _) | _ <;> rfl
  have hnone : ∀ i, ¬ boot.disk.log.get i ≠ none := by
    intro i
    rw [hlog, get_empty]
    exact not_not.mpr rfl
  rw [hdisk]
  refine ⟨?_, fun i hi => absurd hi (hnone i), fun i j hi => absurd hi (hnone i), ?_, ?_⟩
  · cases boot with
    | peer boot => exact LogAnswers.backs_boot boot hlog
    | pd => exact LogAnswers.backs_boot .bootstrap hlog
  · rcases boot with (_ | _ | _) | _ <;> rfl
  · rcases boot with (_ | _ | _) | _ <;> exact ⟨rfl, rfl⟩

section

variable {rd : Ready} {e : Entry} {es : List Entry}

theorem ne_none_afterReady (hrd : rd.Allowed L) (hes : rd.entries = e :: es) (i : ℕ) :
    (disk.afterReady rd).log.get i ≠ none ↔
      e.index ≤ i ∧ i < e.index + rd.entries.length ∨ disk.log.get i ≠ none := by
  rw [get_afterReady hrd hes]
  split
  · rename_i hin
    rw [getElem?_eq_getElem (by omega)]
    simp [hin]
  · rename_i hout
    simp [hout]

theorem Synced.save (h : Synced kind disk s L) (hrd : rd.Allowed L)
    (hgrows : ∀ l, rd.entries.getLast? = some l → L.lastIndex ≤ l.index) :
    Synced kind (disk.afterReady rd) (s.postPersist rd.hardState rd.entries) (rd.extend L) := by
  have hhard : ((disk.afterReady rd).hardState).getD {} =
      (s.postPersist rd.hardState rd.entries).hardState := by
    show (if rd.hardState = {} then disk.hardState else some rd.hardState).getD {} =
      if rd.hardState = {} then s.hardState else rd.hardState
    split
    · exact h.hard
    · rfl
  have htrunc : (kind.recover (disk.afterReady rd)).applyState =
      (kind.recover disk).applyState := applyState_recover (disk.afterReady rd) rfl
  rcases hes : rd.entries with _ | ⟨e, es⟩
  · -- no entries: the log stays as it is
    have hlog : (disk.afterReady rd).log = disk.log := log_afterReady_of_nil hes
    have hL : rd.extend L = L := extend_of_nil hes
    refine ⟨hes ▸ h.toBacks.save hrd, ?_, ?_, hes ▸ hhard, htrunc ▸ h.truncated⟩
    · rw [hlog, hL]
      exact h.bound
    · rw [hlog, hL]
      exact h.convex
  · have hne : ∀ i, (disk.afterReady rd).log.get i ≠ none ↔ _ := ne_none_afterReady hrd hes
    have hback := h.toBacks.save hrd
    have hlast := lastIndex_extend (L := L) hes
    rw [← hes]
    obtain ⟨hcons, hle, hfirst⟩ := hrd.of_cons hes
    obtain ⟨l, hl⟩ : ∃ l, rd.entries.getLast? = some l :=
      ⟨_, getLast?_eq_some_getLast (by rw [hes]; exact cons_ne_nil e es)⟩
    have hlidx := hcons.getLast? hl
    have hgrow := hgrows l hl
    refine ⟨hback, ?_, ?_, hhard, htrunc ▸ h.truncated⟩
    · intro i hi
      rcases (hne i).mp hi with hin | hold
      · omega
      · have := h.bound i hold
        omega
    · intro i j hi hij hj
      rw [hne]
      by_cases hin : e.index ≤ j
      · exact .inl ⟨hin, by omega⟩
      · -- below the new entries nothing has changed
        rcases (hne i).mp hi with hi | hold
        · omega
        · exact .inr (h.convex i j hold hij (by omega))

theorem Synced.not_recovers_save (h : Synced kind disk s L) (hrd : rd.Allowed L) {l : Entry}
    (hl : rd.entries.getLast? = some l) (hlt : l.index < L.lastIndex) (size : Entry → ℕ) :
    ¬ Recovers kind size (disk.afterReady rd) (s.postPersist rd.hardState rd.entries)
      (rd.extend L) := by
  intro hrec
  rcases hes : rd.entries with _ | ⟨e, es⟩
  · rw [hes] at hl
    cases hl
  · have hback := h.toBacks.save hrd
    obtain ⟨hcons, hle, hfirst⟩ := hrd.of_cons hes
    have hlidx := hcons.getLast? hl
    have hlen : 0 < rd.entries.length := by rw [hes]; simp
    -- the old last entry is in the engine, and the new ones do not reach it
    obtain ⟨x, -, hx⟩ := h.stored L.lastIndex (by omega) le_rfl
    have hold : (disk.afterReady rd).log.get L.lastIndex ≠ none := by
      rw [ne_none_afterReady hrd hes, hx]
      exact .inr (by simp)
    have hnil : (disk.afterReady rd).log.toList ≠ [] := by
      intro hnil
      exact hold (toList_eq_nil_iff.mp hnil L.lastIndex)
    obtain ⟨p, hp⟩ := Option.ne_none_iff_exists'.mp (mt getLast?_eq_none_iff.mp hnil)
    have hpidx : p.2.index = p.1 :=
      hback.indexed p.1 p.2 (mem_toList.mp (mem_of_getLast? hp))
    have hpge : L.lastIndex ≤ p.1 := le_of_getLast? hp hold
    have hlast := hrec.lastIndex
    rw [lastIndex_recover hp (by omega), hback.last, lastIndex_extend hes] at hlast
    omega

theorem started_save (hrd : rd.Allowed L) (hstarted : rd.entries = [] → Started kind disk s) :
    Started kind (disk.afterReady rd) (s.postPersist rd.hardState rd.entries) := by
  rcases hes : rd.entries with _ | ⟨e, es⟩
  · have hlog : (disk.afterReady rd).log = disk.log := log_afterReady_of_nil hes
    exact (hstarted hes).imp_left fun h => hlog.symm ▸ h
  · refine .inl fun hnil => ?_
    have hnone := toList_eq_nil_iff.mp hnil e.index
    exact (ne_none_afterReady hrd hes e.index).mpr (.inl ⟨le_rfl, by rw [hes]; simp⟩) hnone

end

theorem started_recover (kind : StorageKind) (disk : RaftDisk) :
    Started kind disk (kind.recover disk) := by
  by_cases hnil : disk.log.toList = []
  · obtain ⟨hentries, hhigh⟩ := recover_of_nil kind hnil
    refine .inr ?_
    rw [← hhigh, lastIndex, hentries]
    rfl
  · exact .inl hnil

theorem synced_step {r : ℕ} {s s' : LogState} {a : Action}
    (h : Synced kind (s.cf r) s.storage s.log) (hC : Grows s a) (hs : step kind r s a = some s')
    (size : Entry → ℕ) : Synced kind (s'.cf r) s'.storage s'.log ∧
      Recovers kind size (s'.cf r) s'.storage s'.log := by
  cases a with
  | save rd path =>
    obtain ⟨⟨hrd, hpath, -, hstarted⟩, rfl⟩ := of_guard hs
    rw [save_disk hpath, save_storage, save_log]
    have h' := h.save hrd hC
    exact ⟨h', h'.recovers (started_save hrd hstarted) size⟩
  | restart =>
    obtain ⟨hstarted, rfl⟩ := of_guard hs
    have h' := h.recover hstarted
    exact ⟨h', h'.recovers (started_recover kind (s.cf r)) size⟩

/-- **The persisted log is the log in memory** after every Ready of a run, with restarts
in between, exactly when no Ready ends below the last index of the log. -/
theorem recovers_iff (boot : Boot) (others : RaftCF) (r : ℕ) (size : Entry → ℕ)
    (run : List Action) : (system boot others r).AlwaysAfter
        (fun s => Recovers boot.kind size (s.cf r) s.storage s.log) (start boot others r) run ↔
      (system boot others r).Meets Grows (start boot others r) run := by
  refine alwaysAfter_iff
    (I := fun s : LogState => Synced boot.kind (s.cf r) s.storage s.log) ?_ ?_
    (synced_start boot others r) run
  · intro s s' a h hC hs
    exact synced_step h hC hs size
  · intro s s' a h hC hs
    cases a with
    | save rd path =>
      obtain ⟨⟨hrd, hpath, -, -⟩, rfl⟩ := of_guard hs
      simp only [Grows, not_forall, not_le] at hC
      obtain ⟨l, hl, hlt⟩ := hC
      rw [save_disk hpath, save_storage, save_log]
      exact h.not_recovers_save hrd hl hlt size
    | restart => exact absurd trivial hC

def replacingRun : List Action :=
  [.save ⟨⟨6, 1, 5⟩, [⟨.normal, 6, 6, []⟩, ⟨.normal, 6, 7, [1]⟩]⟩ .inline,
    .save ⟨⟨7, 2, 5⟩, [⟨.normal, 7, 6, []⟩]⟩ .inline]

theorem replaced_entry_reappears :
    ∃ s, (system (.peer .new) (fun _ => {}) 1).Reachable s ∧ s.storage.lastIndex = 6 ∧
      (PeerStorage.recoverFromEngine (s.cf 1)).lastIndex = 7 ∧
      StorageKind.peer.entryAt (fun e => e.data.length) (s.cf 1)
        (PeerStorage.recoverFromEngine (s.cf 1)) 7 = .ok [⟨.normal, 6, 7, [1]⟩] := by
  obtain ⟨s, hs, hlast, hrec, hentry⟩ : ∃ s,
      (system (.peer .new) (fun _ => {}) 1).runFrom (start (.peer .new) (fun _ => {}) 1)
        replacingRun = some s ∧ s.storage.lastIndex = 6 ∧
        (recoverFromEngine (s.cf 1)).lastIndex = 7 ∧
        StorageKind.peer.entryAt (fun e => e.data.length) (s.cf 1)
          (recoverFromEngine (s.cf 1)) 7 = .ok [⟨.normal, 6, 7, [1]⟩] :=
    ⟨_, rfl, rfl, rfl, rfl⟩
  exact ⟨s, reachable_of_run .start hs, hlast, hrec, hentry⟩

end LogRecovery

end Raftstore
