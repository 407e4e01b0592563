/-
What a restarted PD applies.

Both reads of the log start at index 1 and stop at the first entry that is missing.
-/
import Gookv.PdServer

namespace Pd

open Raftstore Disk List RaftStorage Server

theorem Disk.readEntries_eq (d : Disk) (lo n : ℕ) (hlo : d.deleted < lo) :
    d.readEntries lo n = (d.entries.drop (lo - 1)).take n := by
  induction n generalizing lo with
  | zero => rfl
  | succ n ih =>
    rw [Disk.readEntries, Disk.get, if_pos hlo]
    have hnext : lo + 1 - 1 = lo - 1 + 1 := by omega
    cases hget : d.entries[lo - 1]? with
    | none =>
      rw [drop_eq_nil_of_le (List.getElem?_eq_none_iff.mp hget), take_nil]
    | some e =>
      obtain ⟨hlt, rfl⟩ := List.getElem?_eq_some_iff.mp hget
      rw [drop_eq_getElem_cons hlt, take_succ_cons, ih (lo + 1) (by omega), hnext]

theorem Disk.readEntries_missing (d : Disk) (lo n : ℕ) (hlo : lo ≤ d.deleted) :
    d.readEntries lo n = [] := by
  cases n with
  | zero => rfl
  | succ n => rw [readEntries, get, if_neg (not_lt.mpr hlo)]

/-- The cache holds an end of the log, and not the first entry when that is gone. -/
structure StorageOk (log : List Entry) (s : RaftStorage) : Prop where
  engine : s.engine.entries = log
  last : s.persistedLastIndex = log.length
  first : 1 ≤ s.cacheFirst
  cache : s.entries = log.drop (s.cacheFirst - 1)
  gone : s.engine.deleted ≠ 0 → s.entries = [] ∨ 2 ≤ s.cacheFirst

namespace StorageOk

variable {log : List Entry} {s : RaftStorage}

theorem lastIndex (h : StorageOk log s) : s.lastIndex = log.length := by
  unfold RaftStorage.lastIndex
  split
  · exact h.last
  · rename_i hne
    have hlt : s.cacheFirst - 1 < log.length := by
      by_contra hge
      exact hne (h.cache.trans (drop_eq_nil_of_le (not_lt.mp hge)))
    have hfirst := h.first
    rw [h.cache, length_drop]
    omega

theorem entriesIn (h : StorageOk log s) (htrunc : s.applyState.truncatedIndex = 0) {n : ℕ}
    (hn : n ≤ log.length) :
    s.entriesIn 1 (n + 1) = .ok (if s.engine.deleted = 0 then log.take n else []) := by
  have hfirst : s.firstIndex = 1 := by rw [RaftStorage.firstIndex, htrunc]
  unfold RaftStorage.entriesIn
  rw [if_neg (by omega), if_neg (by omega), h.lastIndex, if_neg (by omega), Nat.add_sub_cancel]
  split
  · -- The cache starts at index 1, so it is the whole log.
    rename_i hcached
    have hone : s.cacheFirst = 1 := le_antisymm hcached.2.1 h.first
    have hzero : s.engine.deleted = 0 := by
      by_contra hne
      rcases h.gone hne with hnil | htwo
      · exact hcached.1 hnil
      · omega
    rw [if_pos hzero, h.cache, hone]
    rfl
  · split
    · rename_i hzero
      rw [Disk.readEntries_eq _ _ _ (by omega), h.engine]
      rfl
    · rename_i hne
      rw [Disk.readEntries_missing _ _ _ (Nat.one_le_iff_ne_zero.mpr hne)]

theorem compactTo (h : StorageOk log s) {index : ℕ} (hindex : 2 ≤ index) :
    StorageOk log (s.compactTo index) ∧
      ((s.compactTo index).entries = [] ∨ 2 ≤ (s.compactTo index).cacheFirst) := by
  unfold RaftStorage.compactTo
  split
  · rename_i hnil
    exact ⟨h, .inl hnil⟩
  · split
    · rename_i hle
      exact ⟨h, .inr (hindex.trans hle)⟩
    · rename_i hlt
      have hfirst := h.first
      have hdrop : s.cacheFirst - 1 + (index - s.cacheFirst) = index - 1 := by omega
      refine ⟨⟨h.engine, h.last, one_le_two.trans hindex, ?_, fun _ => .inr hindex⟩, .inr hindex⟩
      rw [h.cache, drop_drop, hdrop]

end StorageOk

/-! ### What the recovery applies -/

/-- The entry starts a deletion of the log when nothing is truncated yet. -/
def compacts : Entry → Prop
  | some (.compactLog index _) => 0 < index
  | _ => False

/-- The deletions in the background only concern entries that the cache has dropped. -/
structure ServerOk (log : List Entry) (s : Server) : Prop where
  storage : StorageOk log s.storage
  untouched : s.background = [] → s.storage.applyState.truncatedIndex = 0
  pending : ∀ endIdx ∈ s.background, 2 ≤ endIdx
  dropped : s.background ≠ [] → s.storage.entries = [] ∨ 2 ≤ s.storage.cacheFirst

theorem Server.applyEntry_state (s : Server) (e : Entry) :
    (s.applyEntry e).state = s.state.applyEntry e := by
  unfold applyEntry
  split
  · unfold compactLog
    dsimp only
    split <;> rfl
  · rfl

theorem Server.foldl_applyEntry_state (es : List Entry) (s : Server) :
    (es.foldl Server.applyEntry s).state = s.state.applyAll es := by
  induction es generalizing s with
  | nil => rfl
  | cons e es ih =>
    rw [foldl_cons, ih, applyEntry_state]
    rfl

theorem Server.foldl_applyEntry_engine (es : List Entry) (s : Server) :
    (es.foldl Server.applyEntry s).storage.engine = s.storage.engine := by
  induction es generalizing s with
  | nil => rfl
  | cons e es ih =>
    rw [foldl_cons, ih]
    unfold applyEntry
    split
    · unfold compactLog compactTo
      dsimp only
      split
      · rfl
      · split
        · rfl
        · split <;> rfl
    · rfl

namespace ServerOk

variable {log : List Entry} {s : Server}

theorem applyEntry (h : ServerOk log s) (e : Entry) : ServerOk log (s.applyEntry e) ∧
      ((s.applyEntry e).background = [] ↔ s.background = [] ∧ ¬ compacts e) := by
  unfold Server.applyEntry
  split
  · rename_i index term
    unfold Server.compactLog
    dsimp only
    split
    · rename_i hle
      refine ⟨h, ⟨fun hnil => ⟨hnil, fun hpos => ?_⟩, And.left⟩⟩
      have hzero := h.untouched hnil
      have hpos : 0 < index := hpos
      omega
    · rename_i hlt
      have hindex : 2 ≤ index + 1 := by omega
      have hmoved : StorageOk log { s.storage with
          applyState :=
            { s.storage.applyState with truncatedIndex := index, truncatedTerm := term } } :=
        ⟨h.storage.engine, h.storage.last, h.storage.first, h.storage.cache, h.storage.gone⟩
      obtain ⟨hstorage, hdropped⟩ := hmoved.compactTo hindex
      refine ⟨⟨hstorage, fun hnil => ?_, fun endIdx hmem => ?_, fun _ => hdropped⟩, ?_⟩
      · exact absurd hnil (append_ne_nil_of_right_ne_nil _ (cons_ne_nil _ _))
      · rcases List.mem_append.mp hmem with hmem | hmem
        · exact h.pending endIdx hmem
        · exact List.mem_singleton.mp hmem ▸ hindex
      · refine ⟨fun hnil => ?_, fun hnone => ?_⟩
        · exact absurd hnil (append_ne_nil_of_right_ne_nil _ (cons_ne_nil _ _))
        · exact absurd (show 0 < index by omega) hnone.2
  · rename_i hne
    refine ⟨⟨h.storage, h.untouched, h.pending, h.dropped⟩, ?_⟩
    refine ⟨fun hnil => ⟨hnil, fun hcompacts => ?_⟩, And.left⟩
    unfold compacts at hcompacts
    split at hcompacts
    · exact hne _ _ rfl
    · exact hcompacts

theorem foldl_applyEntry (h : ServerOk log s) (es : List Entry) :
    ServerOk log (es.foldl Server.applyEntry s) ∧
      ((es.foldl Server.applyEntry s).background = [] ↔
        s.background = [] ∧ ∀ e ∈ es, ¬ compacts e) := by
  induction es generalizing s with
  | nil => exact ⟨h, by simp⟩
  | cons e es ih =>
    obtain ⟨hnext, hbackground⟩ := h.applyEntry e
    obtain ⟨hok, hiff⟩ := ih hnext
    refine ⟨hok, hiff.trans ?_⟩
    rw [hbackground, forall_mem_cons, and_assoc]

end ServerOk

theorem Disk.foldl_deleteEntriesTo (d : Disk) (ran : List ℕ) :
    (ran.foldl Disk.deleteEntriesTo d).entries = d.entries ∧
      d.deleted ≤ (ran.foldl Disk.deleteEntriesTo d).deleted ∧
      ∀ endIdx ∈ ran, endIdx - 1 ≤ (ran.foldl Disk.deleteEntriesTo d).deleted := by
  induction ran generalizing d with
  | nil => exact ⟨rfl, le_rfl, by simp⟩
  | cons endIdx ran ih =>
    obtain ⟨hentries, hle, hran⟩ := ih (d.deleteEntriesTo endIdx)
    have hone : (d.deleteEntriesTo endIdx).entries = d.entries ∧
        d.deleted ≤ (d.deleteEntriesTo endIdx).deleted ∧
        endIdx - 1 ≤ (d.deleteEntriesTo endIdx).deleted := by
      unfold deleteEntriesTo
      split
      · exact ⟨rfl, le_rfl, by omega⟩
      · exact ⟨rfl, le_max_left _ _, le_max_right _ _⟩
    rw [foldl_cons]
    refine ⟨hentries.trans hone.1, hone.2.1.trans hle, fun i hi => ?_⟩
    rcases mem_cons.mp hi with rfl | hi
    · exact hone.2.2.trans hle
    · exact hran i hi

namespace Persisted

variable (p : Persisted)

theorem deleted_lt (h : p.deleted ≠ 0) : p.deleted < p.committed.length := by
  rcases p.deleted_ok with hzero | ⟨before, term, after, hcommitted, hle⟩
  · exact absurd hzero h
  · rw [hcommitted, length_append, length_cons]
    omega

theorem recovered_ok :
    ServerOk (p.committed ++ p.tail) ⟨.initial, .recoverFromEngine p.disk, []⟩ := by
  refine ⟨⟨rfl, ?_, Nat.le_add_left 1 _, ?_, fun hgone => .inr ?_⟩, fun _ => rfl, by simp, by simp⟩
  · dsimp only [recoverFromEngine]
    by_cases hnil : p.disk.entries.drop p.disk.deleted = []
    · -- Nothing was scanned: the log is empty, as a deletion never takes all of it.
      rw [if_pos hnil]
      have hle : (p.committed ++ p.tail).length ≤ p.deleted := drop_eq_nil_iff.mp hnil
      by_cases hzero : p.deleted = 0
      · omega
      · have hlt := p.deleted_lt hzero
        rw [length_append] at hle
        omega
    · rw [if_neg hnil]
      rfl
  · dsimp only [recoverFromEngine]
    rw [drop_drop, Nat.add_sub_cancel]
    rfl
  · have hdeleted : p.deleted ≠ 0 := hgone
    dsimp only [recoverFromEngine, disk]
    omega

/-- What the replay applies: the whole log, or nothing when its beginning is gone. -/
def replayed : List Entry := if p.deleted = 0 then p.committed ++ p.tail else []

theorem boot_spec : ∃ s, p.boot = .ok s ∧ s.state = State.initial.applyAll p.replayed ∧
    s.storage.engine = p.disk ∧ s.storage.applyState.truncatedIndex = 0 ∧
    ServerOk (p.committed ++ p.tail) s ∧ (s.background = [] ↔ ∀ e ∈ p.replayed, ¬ compacts e) := by
  have hok := p.recovered_ok
  have hlast := hok.storage.lastIndex
  have hread := hok.storage.entriesIn rfl (n := (p.committed ++ p.tail).length) le_rfl
  rw [take_length] at hread
  unfold boot replayRaftLog
  dsimp only at hlast hread ⊢
  rw [hlast]
  split
  · rename_i hempty
    have hnil : p.committed ++ p.tail = [] := length_eq_zero_iff.mp (Nat.le_zero.mp hempty)
    have hreplayed : p.replayed = [] := by
      unfold replayed
      split
      · exact hnil
      · rfl
    refine ⟨_, rfl, ?_, rfl, rfl, hok, ?_⟩
    · rw [hreplayed]
      rfl
    · rw [hreplayed]
      simp
  · have hone : (recoverFromEngine p.disk).applyState.appliedIndex + 1 = 1 := rfl
    rw [hone, hread]
    obtain ⟨hserver, hbackground⟩ := hok.foldl_applyEntry p.replayed
    refine ⟨_, rfl, foldl_applyEntry_state p.replayed _,
      foldl_applyEntry_engine p.replayed _, rfl, ?_, ?_⟩
    · exact ⟨⟨hserver.storage.engine, hserver.storage.last, hserver.storage.first,
        hserver.storage.cache, hserver.storage.gone⟩, fun _ => rfl, hserver.pending,
        hserver.dropped⟩
    · exact hbackground.trans (and_iff_right rfl)

theorem redeliver_spec {s : Server} (hengine : s.storage.engine = p.disk)
    (htrunc : s.storage.applyState.truncatedIndex = 0)
    (hok : ServerOk (p.committed ++ p.tail) s) {ran : List ℕ} (hran : ran ⊆ s.background) :
    ((s.runDeletions ran).redeliver p.committed.length).state =
      s.state.applyAll (if p.deleted = 0 ∧ ran = [] then p.committed else []) := by
  obtain ⟨hentries, hle, hdeleted⟩ := foldl_deleteEntriesTo s.storage.engine ran
  set disk' := ran.foldl deleteEntriesTo s.storage.engine with hdisk
  -- A deletion that has run takes the first entry.
  have hgone : disk'.deleted = 0 ↔ p.deleted = 0 ∧ ran = [] := by
    rw [hengine] at hle
    refine ⟨fun hzero => ⟨Nat.le_zero.mp (hzero ▸ hle), ?_⟩, fun hnone => ?_⟩
    · refine eq_nil_iff_forall_not_mem.mpr fun endIdx hmem => ?_
      have htwo := hok.pending endIdx (hran hmem)
      have hlt := hdeleted endIdx hmem
      omega
    · rw [hdisk, hnone.2, foldl_nil, hengine]
      exact hnone.1
  have hstorage : StorageOk (p.committed ++ p.tail) (s.runDeletions ran).storage := by
    refine ⟨hentries.trans hok.storage.engine, hok.storage.last, hok.storage.first,
      hok.storage.cache, fun hne => ?_⟩
    by_cases hnil : ran = []
    · subst hnil
      exact hok.storage.gone hne
    · exact hok.dropped fun hback => hnil (subset_nil.mp (hback ▸ hran))
  have hfirst : (s.runDeletions ran).storage.firstIndex = 1 := by
    change s.storage.applyState.truncatedIndex + 1 = 1
    rw [htrunc]
  unfold redeliver
  rw [hfirst]
  have htake : (p.committed ++ p.tail).take p.committed.length = p.committed := take_left
  split
  · have hlen : p.committed.length ≤ (p.committed ++ p.tail).length := by simp
    have hread := hstorage.entriesIn htrunc hlen
    have hdisk' : (s.runDeletions ran).storage.engine.deleted = 0 ↔ p.deleted = 0 ∧ ran = [] := hgone
    rw [htake, if_congr hdisk' rfl rfl] at hread
    rw [hread]
    exact foldl_applyEntry_state _ _
  · rename_i hempty
    have hnil : p.committed = [] := length_eq_zero_iff.mp (by omega)
    rw [hnil, ite_self]
    rfl

end Persisted

end Pd
