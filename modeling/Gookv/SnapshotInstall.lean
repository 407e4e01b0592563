/-
Installing a snapshot: the part of `handleReady` in `internal/raftstore/peer.go` that
persists a Ready and applies its snapshot, and `ApplySnapshot` of `snapshot.go`.
-/
import Gookv.LogBacking
import Gookv.SnapshotData
import Gookv.Region

namespace Raftstore

open Txntypes Rocks Metapb List

structure Snapshot where
  index : ℕ
  term : ℕ
  data : Option SnapshotData
  deriving DecidableEq

structure SnapReady extends Ready where
  snapshot : Snapshot
  deriving DecidableEq

structure Durable where
  cf : RaftCF
  data : DB

def SavePath.persist (r : ℕ) (cf : RaftCF) (s : PeerStorage) (rd : Ready) :
    SavePath → RaftCF × PeerStorage
  | .inline => s.saveReady r cf rd
  | .batched before after =>
    let task := buildWriteTask r rd
    let others := List.map fun p : ℕ × Ready => buildWriteTask p.1 p.2
    (processBatch cf (others before ++ task :: others after), s.applyWriteTaskPostPersist task)

def applyData (crc32 : List UInt8 → UInt32) (region : Option Region) (data : DB)
    (snap : Snapshot) : Option ApplyError × DB :=
  match snap.data with
  | none => (none, data)
  | some sd =>
    applySnapshotData crc32 data sd ((region.map Region.startKey).getD [])
      ((region.map Region.endKey).getD [])

structure Installed where
  dataApplied : Durable
  done : Durable
  storage : PeerStorage

def PeerStorage.applySnapshot (s : PeerStorage) (crc32 : List UInt8 → UInt32) (r : ℕ)
    (region : Option Region) (d : Durable) (snap : Snapshot) : Installed :=
  if snap.index ≤ s.applyState.truncatedIndex then ⟨d, d, s⟩
  else
    match applyData crc32 region d.data snap with
    | (some _, _) => ⟨d, d, s⟩
    | (none, data) =>
      let hardState := { s.hardState with commit := snap.index }
      { dataApplied := ⟨d.cf, data⟩
        done := ⟨commitBatch d.cf [.hardState r hardState], data⟩
        storage := {
          hardState
          applyState := ⟨snap.index, snap.index, snap.term⟩
          entries := []
          persistedLastIndex := snap.index } }

open PeerStorage

structure Installation where
  crc32 : List UInt8 → UInt32
  regionID : ℕ
  region : Option Region
  path : SavePath
  old : Durable
  storage : PeerStorage
  rd : SnapReady
  path_valid : path.Valid regionID
  hardState_eq :
    storage.hardState = (PeerStorage.recoverFromEngine (old.cf regionID)).hardState
  truncatedIndex_le :
    (PeerStorage.recoverFromEngine (old.cf regionID)).applyState.truncatedIndex ≤
      storage.applyState.truncatedIndex
  truncatedIndex_le_commit : storage.applyState.truncatedIndex ≤ storage.hardState.commit
  commit_le_lastIndex :
    storage.hardState.commit ≤ (PeerStorage.recoverFromEngine (old.cf regionID)).lastIndex
  commit_lt_snapshot : storage.hardState.commit < rd.snapshot.index
  snapshot_le_commit : rd.snapshot.index ≤ rd.hardState.commit
  commit_le_entries : rd.hardState.commit ≤ rd.snapshot.index + rd.entries.length
  cache_consecutive : ∃ first, Consecutive first storage.entries
  entries_consecutive : Consecutive (rd.snapshot.index + 1) rd.entries

namespace Installation

variable (x : Installation)

def persisted : RaftCF × PeerStorage :=
  x.path.persist x.regionID x.old.cf x.storage x.rd.toReady

def installed : Installed :=
  x.persisted.2.applySnapshot x.crc32 x.regionID x.region ⟨x.persisted.1, x.old.data⟩ x.rd.snapshot

inductive CrashPoint
  | beforePersist
  | persisted
  | dataApplied
  | done
  deriving DecidableEq

def durableAt : CrashPoint → Durable
  | .beforePersist => x.old
  | .persisted => ⟨x.persisted.1, x.old.data⟩
  | .dataApplied => x.installed.dataApplied
  | .done => x.installed.done

def recovered (d : Durable) : PeerStorage := PeerStorage.recoverFromEngine (d.cf x.regionID)

/-- `Entries` answers every range of the entries behind the snapshot. -/
def Serves (d : Durable) (s : PeerStorage) : Prop :=
  ∀ size lo hi maxSize, x.rd.snapshot.index < lo → lo < hi →
    hi ≤ x.rd.snapshot.index + x.rd.entries.length + 1 →
    s.entriesIn size (d.cf x.regionID) lo hi maxSize =
      .ok (limitSize size maxSize
        ((x.rd.entries.drop (lo - (x.rd.snapshot.index + 1))).take (hi - lo)))

def HidesOld (d : Durable) (s : PeerStorage) : Prop :=
  ∀ size lo hi maxSize, lo ≤ x.rd.snapshot.index → lo ≤ hi →
    s.entriesIn size (d.cf x.regionID) lo hi maxSize = .error .compacted

def IsOld (d : Durable) : Prop := x.recovered d = x.recovered x.old ∧ d.data = x.old.data

structure IsNew (d : Durable) : Prop where
  applyState : (x.recovered d).applyState =
    ⟨x.rd.snapshot.index, x.rd.snapshot.index, x.rd.snapshot.term⟩
  term : (x.recovered d).hardState.term = x.rd.hardState.term
  vote : (x.recovered d).hardState.vote = x.rd.hardState.vote
  commit : x.rd.snapshot.index ≤ (x.recovered d).hardState.commit
  lastIndex : (x.recovered d).lastIndex = x.rd.snapshot.index + x.rd.entries.length
  serves : x.Serves d (x.recovered d)
  hidesOld : x.HidesOld d (x.recovered d)
  data : d.data = (applyData x.crc32 x.region x.old.data x.rd.snapshot).2

structure Survives (d : Durable) : Prop where
  complete : x.IsOld d ∨ x.IsNew d
  truncated_le_commit :
    (x.recovered d).applyState.truncatedIndex ≤ (x.recovered d).hardState.commit
  commit_le_last : (x.recovered d).hardState.commit ≤ (x.recovered d).lastIndex

def Applied : Prop := (applyData x.crc32 x.region x.old.data x.rd.snapshot).1 = none

instance : Decidable x.Applied := inferInstanceAs (Decidable (_ = _))

/-- The cache joins the entries of the Ready without a gap, or they fill it alone. -/
def Joined : Prop := ∀ last ∈ x.storage.entries.getLast?,
  x.rd.snapshot.index ≤ last.index ∨ maxCacheSize ≤ x.rd.entries.length

def Safe : Option CrashPoint → Prop
  | some point => x.Survives (x.durableAt point)
  | none => x.Serves x.installed.done x.installed.storage

/-! ### What the batches leave -/

theorem persisted_disk : x.persisted.1 x.regionID = (x.old.cf x.regionID).afterReady x.rd.toReady := by
  have h := save_disk x.path_valid ⟨x.old.cf, x.storage, ⟨0, 0, 0, fun _ => none⟩⟩ x.rd.toReady
  rw [← h, persisted]
  cases x.path <;> rfl

theorem persisted_storage : x.persisted.2 = x.storage.postPersist x.rd.hardState x.rd.entries := by
  have h := save_storage x.regionID ⟨x.old.cf, x.storage, ⟨0, 0, 0, fun _ => none⟩⟩ x.rd.toReady
    x.path
  rw [← h, persisted]
  cases x.path <;> rfl

theorem recovered_applyState (d : Durable) : (x.recovered d).applyState =
    (d.cf x.regionID).applyState.getD PeerStorage.new.applyState := by
  show (d.cf x.regionID).applyState.getD (new.recoverLog _).applyState = _
  rw [recoverLog]
  dsimp only
  split <;> rfl

theorem recovered_hardState (d : Durable) :
    (x.recovered d).hardState = (d.cf x.regionID).hardState.getD {} := by
  show (new.recoverLog _).hardState = _
  rw [recoverLog]
  dsimp only
  split <;> rfl

theorem not_stale : ¬ x.rd.snapshot.index ≤ x.persisted.2.applyState.truncatedIndex := by
  have hstorage : x.persisted.2.applyState = x.storage.applyState := by
    rw [persisted_storage]
    rfl
  have h₁ := x.truncatedIndex_le_commit
  have h₂ := x.commit_lt_snapshot
  rw [hstorage]
  omega

theorem firstIndex_persisted_le : x.persisted.2.firstIndex ≤ x.rd.snapshot.index := by
  have h := x.not_stale
  rw [firstIndex]
  omega

theorem persisted_entries (hne : x.rd.entries ≠ []) :
    x.persisted.2.entries = appendToCache x.storage.entries x.rd.entries := by
  rw [persisted_storage]
  exact if_neg hne

theorem installed_of_applied (h : x.Applied) : x.installed = {
    dataApplied := ⟨x.persisted.1, (applyData x.crc32 x.region x.old.data x.rd.snapshot).2⟩
    done := ⟨commitBatch x.persisted.1
      [.hardState x.regionID { x.persisted.2.hardState with commit := x.rd.snapshot.index }],
      (applyData x.crc32 x.region x.old.data x.rd.snapshot).2⟩
    storage := {
      hardState := { x.persisted.2.hardState with commit := x.rd.snapshot.index }
      applyState := ⟨x.rd.snapshot.index, x.rd.snapshot.index, x.rd.snapshot.term⟩
      entries := []
      persistedLastIndex := x.rd.snapshot.index } } := by
  rw [installed, applySnapshot, if_neg x.not_stale]
  unfold Applied at h
  rcases hdata : applyData x.crc32 x.region x.old.data x.rd.snapshot with ⟨error, data⟩
  rw [hdata] at h
  obtain rfl : error = none := h
  rfl

theorem installed_of_not_applied (h : ¬ x.Applied) :
    x.installed = ⟨⟨x.persisted.1, x.old.data⟩, ⟨x.persisted.1, x.old.data⟩, x.persisted.2⟩ := by
  rw [installed, applySnapshot, if_neg x.not_stale]
  unfold Applied at h
  rcases hdata : applyData x.crc32 x.region x.old.data x.rd.snapshot with ⟨error, data⟩
  rw [hdata] at h
  obtain ⟨e, rfl⟩ : ∃ e, error = some e := Option.ne_none_iff_exists'.mp h
  rfl

theorem hardState_ne : x.rd.hardState ≠ {} := by
  intro h
  have h₁ := x.commit_lt_snapshot
  have h₂ := x.snapshot_le_commit
  rw [h] at h₂
  change x.rd.snapshot.index ≤ 0 at h₂
  omega

theorem durableAt_disk {point : CrashPoint} (h : point ≠ .beforePersist) :
    ((x.durableAt point).cf x.regionID).applyState = (x.old.cf x.regionID).applyState ∧
      ∃ hs, ((x.durableAt point).cf x.regionID).hardState = some hs ∧
        x.rd.snapshot.index ≤ hs.commit := by
  -- with the first batch the new hard state is there, next to the old apply state
  have hfirst : (x.persisted.1 x.regionID).applyState = (x.old.cf x.regionID).applyState ∧
      ∃ hs, (x.persisted.1 x.regionID).hardState = some hs ∧ x.rd.snapshot.index ≤ hs.commit := by
    rw [persisted_disk]
    exact ⟨rfl, x.rd.hardState, if_neg x.hardState_ne, x.snapshot_le_commit⟩
  -- the last batch writes the hard state once more, and nothing else
  have hlast : ∀ hs : HardState, x.rd.snapshot.index ≤ hs.commit →
      (commitBatch x.persisted.1 [.hardState x.regionID hs] x.regionID).applyState =
        (x.old.cf x.regionID).applyState ∧
      ∃ hs', (commitBatch x.persisted.1 [.hardState x.regionID hs] x.regionID).hardState =
        some hs' ∧ x.rd.snapshot.index ≤ hs'.commit := by
    intro hs hcommit
    have hdisk : commitBatch x.persisted.1 [.hardState x.regionID hs] x.regionID =
        { x.persisted.1 x.regionID with hardState := some hs } := Function.update_self ..
    rw [hdisk]
    exact ⟨hfirst.1, hs, rfl, hcommit⟩
  by_cases happlied : x.Applied
  · cases point with
    | beforePersist => exact absurd rfl h
    | persisted => exact hfirst
    | dataApplied =>
      rw [durableAt, x.installed_of_applied happlied]
      exact hfirst
    | done =>
      rw [durableAt, x.installed_of_applied happlied]
      exact hlast { x.persisted.2.hardState with commit := x.rd.snapshot.index } le_rfl
  · cases point with
    | beforePersist => exact absurd rfl h
    | persisted => exact hfirst
    | dataApplied | done =>
      rw [durableAt, x.installed_of_not_applied happlied]
      exact hfirst

theorem not_survives {point : CrashPoint} (h : point ≠ .beforePersist) :
    ¬ x.Survives (x.durableAt point) := by
  obtain ⟨happly, hs, hhs, hcommit⟩ := x.durableAt_disk h
  have hahead := x.commit_lt_snapshot
  rintro ⟨hold | hnew, -, -⟩
  · -- the old commit index is below the snapshot
    have heq : (x.recovered (x.durableAt point)).hardState = x.storage.hardState := by
      rw [hold.1, x.hardState_eq]
      rfl
    rw [recovered_hardState, hhs, Option.getD_some] at heq
    rw [heq] at hcommit
    omega
  · -- the old truncated index is below the snapshot
    have heq : (x.recovered (x.durableAt point)).applyState = (x.recovered x.old).applyState := by
      rw [recovered_applyState, recovered_applyState, happly]
    have hle : (x.recovered x.old).applyState.truncatedIndex ≤ _ := x.truncatedIndex_le
    have hle' := x.truncatedIndex_le_commit
    rw [← heq, hnew.applyState] at hle
    change x.rd.snapshot.index ≤ _ at hle
    omega

theorem survives_beforePersist : x.Survives (x.durableAt .beforePersist) where
  complete := .inl ⟨rfl, rfl⟩
  truncated_le_commit := by
    have h := x.truncatedIndex_le.trans x.truncatedIndex_le_commit
    rw [x.hardState_eq] at h
    exact h
  commit_le_last := by
    have h := x.commit_le_lastIndex
    rw [x.hardState_eq] at h
    exact h

/-! ### Without a crash -/

theorem serves_of_nil {d : Durable} {s : PeerStorage} (h : x.rd.entries = []) : x.Serves d s := by
  intro size lo hi maxSize hlo hlt hhi
  rw [h] at hhi
  change hi ≤ x.rd.snapshot.index + 0 + 1 at hhi
  omega

theorem serves_iff_of_applied (happlied : x.Applied) :
    x.Serves x.installed.done x.installed.storage ↔ x.rd.entries = [] := by
  have hstorage := congrArg Installed.storage (x.installed_of_applied happlied)
  dsimp only at hstorage
  have hlast : x.installed.storage.lastIndex = x.rd.snapshot.index := by
    rw [hstorage]
    rfl
  have hfirst : x.installed.storage.firstIndex = x.rd.snapshot.index + 1 := by
    rw [hstorage]
    rfl
  refine ⟨fun h => ?_, x.serves_of_nil⟩
  -- the first entry is already above the last index that the storage reports
  by_contra hne
  have hlen : 0 < x.rd.entries.length := length_pos_of_ne_nil hne
  have hserve := h (fun _ => 0) (x.rd.snapshot.index + 1) (x.rd.snapshot.index + 2) 0
    (by omega) (by omega) (by omega)
  rw [entriesIn, entriesWith, if_neg (by omega), if_neg (by omega),
    if_pos (by omega)] at hserve
  cases hserve

/-- The log behind the snapshot, as the Ready has it. -/
def readyLog : LogicalLog Entry where
  truncatedIndex := x.rd.snapshot.index
  truncatedTerm := x.rd.snapshot.term
  lastIndex := x.rd.snapshot.index + x.rd.entries.length
  entry i := x.rd.entries[i - (x.rd.snapshot.index + 1)]?

theorem entry_of_mem {e : Entry} (he : e ∈ x.rd.entries) : x.readyLog.entry e.index = some e := by
  obtain ⟨n, hn⟩ := mem_iff_getElem?.mp he
  have hidx := x.entries_consecutive.index_of_getElem? hn
  show x.rd.entries[e.index - (x.rd.snapshot.index + 1)]? = some e
  rw [hidx, Nat.add_sub_cancel_left, hn]

theorem slice_readyLog {lo hi : ℕ} {es : List Entry} (hes : Consecutive lo es)
    (hlen : es.length = hi - lo) (hmem : ∀ e ∈ es, e ∈ x.rd.entries) :
    x.readyLog.slice lo hi = es :=
  LogicalLog.slice_eq_of_map Entry.index (by rw [hes, hlen]) fun e he => x.entry_of_mem (hmem e he)

/-- What a consecutive cache of the Ready's entries answers, or the engine below it. -/
theorem serves_of_cache {f : ℕ} (hne : x.rd.entries ≠ [])
    (hcons : Consecutive f x.persisted.2.entries)
    (hlast : x.persisted.2.entries.getLast? = x.rd.entries.getLast?)
    (hmem : ∀ e ∈ x.persisted.2.entries, x.rd.snapshot.index < e.index → e ∈ x.rd.entries) :
    x.Serves ⟨x.persisted.1, x.old.data⟩ x.persisted.2 := by
  intro size lo hi maxSize hlo hlt hhi
  have hslice : x.readyLog.slice lo hi =
      (x.rd.entries.drop (lo - (x.rd.snapshot.index + 1))).take (hi - lo) := by
    have hseg := (x.entries_consecutive.drop (lo - (x.rd.snapshot.index + 1))).take (hi - lo)
    rw [Nat.add_sub_cancel' (by omega)] at hseg
    refine x.slice_readyLog hseg ?_ fun e he => mem_of_mem_drop (mem_of_mem_take he)
    rw [length_take, length_drop]
    omega
  obtain ⟨l, hl⟩ := Option.ne_none_iff_exists'.mp (mt List.getLast?_eq_none_iff.mp hne)
  have hlidx := x.entries_consecutive.getLast? hl
  have hlastIndex : x.persisted.2.lastIndex = l.index := by
    rw [lastIndex, hlast, hl]
  have hfirst := x.firstIndex_persisted_le
  rw [← hslice, entriesIn, entriesWith, if_neg (by omega), if_neg (by omega), if_neg (by omega)]
  cases hc : x.persisted.2.cached lo hi with
  | none =>
    have hread : readEntriesFromEngine (x.persisted.1 x.regionID) lo hi =
        .ok (x.readyLog.slice lo hi) := by
      refine read_of_stored (fun i hi₁ hi₂ => ?_) hlo hlt.le (by simpa [readyLog] using hhi)
      have hin : i - (x.rd.snapshot.index + 1) < x.rd.entries.length := by
        change i ≤ x.rd.snapshot.index + x.rd.entries.length at hi₂
        change x.rd.snapshot.index < i at hi₁
        omega
      refine ⟨_, getElem?_eq_getElem hin, ?_⟩
      rw [persisted_disk]
      change x.rd.snapshot.index < i at hi₁
      exact (get_putEntries x.entries_consecutive _ i).trans
        ((if_pos ⟨by omega, by omega⟩).trans (getElem?_eq_getElem hin))
    show (readEntriesFromEngine (x.persisted.1 x.regionID) lo hi).map _ = _
    rw [hread]
    rfl
  | some es =>
    unfold PeerStorage.cached at hc
    split at hc
    · rename_i c l' hhead hl'
      split at hc
      · rename_i hin
        obtain rfl := Option.some.inj hc
        have hcf : c.index = f := by
          rw [head?_eq_getElem?] at hhead
          exact hcons.index_of_getElem? hhead
        have hlen := hcons.getLast? hl'
        rw [hcf] at hin ⊢
        have hseg := (hcons.drop (lo - f)).take (hi - lo)
        rw [Nat.add_sub_cancel' hin.1] at hseg
        rw [x.slice_readyLog hseg ?_ fun e he => ?_]
        · rw [length_take, length_drop]
          omega
        · have hb := hseg.mem_bounds he
          exact hmem e (mem_of_mem_drop (mem_of_mem_take he)) (by omega)
      · cases hc
    · cases hc

theorem appendToCache_of_gap {f first : ℕ} {cache es : List Entry} (hcache : Consecutive f cache)
    (hes : Consecutive first es) (hne : es ≠ []) (hc : cache ≠ []) (hgap : f + cache.length ≤ first) :
    appendToCache cache es =
      (cache ++ es).drop (cache.length + es.length - maxCacheSize) := by
  match cache, es, hc, hne with
  | c :: cache, e :: es, _, _ =>
    have hcf := hcache.head
    have hef := hes.head
    have hlen : (c :: cache).length ≤ e.index - c.index := by omega
    have hlt : ¬ e.index ≤ c.index := by
      rw [length_cons] at hlen
      omega
    rw [appendToCache]
    simp only [if_neg hlt, take_of_length_le hlen, length_append]

theorem serves_of_joined (hne : x.rd.entries ≠ []) (h : x.Joined) :
    x.Serves ⟨x.persisted.1, x.old.data⟩ x.persisted.2 := by
  obtain ⟨f, hf⟩ := x.cache_consecutive
  have hentries := x.persisted_entries hne
  by_cases hgap : x.storage.entries ≠ [] → x.rd.snapshot.index + 1 ≤ f + x.storage.entries.length
  · obtain ⟨⟨f', hf'⟩, hlast, hmem⟩ := appendToCache_spec hf x.entries_consecutive hne hgap
    rw [← hentries] at hf' hlast hmem
    exact x.serves_of_cache hne hf' hlast fun e he hlt =>
      (hmem e he).resolve_right fun h => by omega
  · -- a gap, but the Ready alone fills the cache
    obtain ⟨hc, hgap⟩ := Classical.not_imp.mp hgap
    obtain ⟨l, hl⟩ := Option.ne_none_iff_exists'.mp (mt List.getLast?_eq_none_iff.mp hc)
    have hlidx := hf.getLast? hl
    have hfull : maxCacheSize ≤ x.rd.entries.length := (h l hl).resolve_left (by omega)
    have hK : x.persisted.2.entries =
        x.rd.entries.drop (x.rd.entries.length - maxCacheSize) := by
      rw [hentries, appendToCache_of_gap hf x.entries_consecutive hne hc (by omega),
        drop_append, drop_eq_nil_of_le (by omega), nil_append,
        Nat.sub_right_comm, Nat.add_sub_cancel_left]
    have hcons := x.entries_consecutive.drop (x.rd.entries.length - maxCacheSize)
    rw [← hK] at hcons
    refine x.serves_of_cache hne hcons ?_ fun e he _ => ?_
    · rw [hK, getLast?_drop, if_neg (by rw [maxCacheSize] at *; omega)]
    · rw [hK] at he
      exact mem_of_mem_drop he

theorem not_serves_of_gap (hne : x.rd.entries ≠ []) (h : ¬ x.Joined) :
    ¬ x.Serves ⟨x.persisted.1, x.old.data⟩ x.persisted.2 := by
  obtain ⟨f, hf⟩ := x.cache_consecutive
  have hentries := x.persisted_entries hne
  unfold Joined at h
  push Not at h
  obtain ⟨l, hl, hlt, hshort⟩ := h
  have hlidx := hf.getLast? hl
  have hc : x.storage.entries ≠ [] := by
    rintro h0
    rw [h0] at hl
    cases hl
  -- some cached entry is left in front of those of the Ready
  obtain ⟨d, hd⟩ : ∃ d, d = x.storage.entries.length + x.rd.entries.length - maxCacheSize := ⟨_, rfl⟩
  have hdlt : d < x.storage.entries.length := by
    have := length_pos_of_ne_nil hc
    omega
  have hK : x.persisted.2.entries = x.storage.entries.drop d ++ x.rd.entries := by
    rw [hentries, appendToCache_of_gap hf x.entries_consecutive hne hc (by omega), ← hd,
      drop_append, Nat.sub_eq_zero_of_le hdlt.le, drop_zero]
  obtain ⟨c, hcd⟩ : ∃ c, x.storage.entries[d]? = some c := ⟨_, getElem?_eq_getElem hdlt⟩
  have hcidx := hf.index_of_getElem? hcd
  have hhead : x.persisted.2.entries.head? = some c := by
    rw [hK, head?_append, head?_drop, hcd]
    rfl
  obtain ⟨l', hl'⟩ := Option.ne_none_iff_exists'.mp (mt List.getLast?_eq_none_iff.mp hne)
  have hl'idx := x.entries_consecutive.getLast? hl'
  have hlen : 0 < x.rd.entries.length := length_pos_of_ne_nil hne
  have hlast : x.persisted.2.entries.getLast? = some l' := by
    rw [hK, getLast?_append, hl']
    rfl
  have hfirst := x.firstIndex_persisted_le
  have hlastIndex : x.persisted.2.lastIndex = l'.index := by rw [lastIndex, hlast]
  intro hserves
  have hserve := hserves (fun _ => 0) (x.rd.snapshot.index + 1) (x.rd.snapshot.index + 2) 0
    (by omega) (by omega) (by omega)
  -- the offset into the cache passes over the first entry of the Ready
  obtain ⟨j, hj⟩ : ∃ j, x.rd.snapshot.index + 1 - c.index = (x.storage.entries.length - d) + (j + 1) :=
    ⟨x.rd.snapshot.index - (f + x.storage.entries.length), by omega⟩
  have hcached : x.persisted.2.cached (x.rd.snapshot.index + 1) (x.rd.snapshot.index + 2) =
      some ((x.rd.entries.drop (j + 1)).take 1) := by
    rw [PeerStorage.cached, hhead, hlast]
    dsimp only
    rw [if_pos ⟨by omega, by omega⟩, hj, hK, drop_append, length_drop,
      drop_eq_nil_of_le (by rw [length_drop]; omega), nil_append,
      Nat.add_sub_cancel_left, show x.rd.snapshot.index + 2 - (x.rd.snapshot.index + 1) = 1 by omega]
  rw [entriesIn, entriesWith, if_neg (by omega), if_neg (by omega), if_neg (by omega), hcached,
    Nat.sub_self, drop_zero] at hserve
  have hall : ∀ es, limitSize (fun _ => 0) 0 es = es := fun _ => if_pos rfl
  have hheads := congrArg List.head? (Except.ok.inj hserve)
  rw [hall, hall, head?_take, head?_take, if_neg (by omega), if_neg (by omega),
    head?_drop, head?_eq_getElem?] at hheads
  obtain ⟨e, he⟩ : ∃ e, x.rd.entries[0]? = some e := ⟨_, getElem?_eq_getElem hlen⟩
  have h₀ := x.entries_consecutive.index_of_getElem? he
  have h₁ := x.entries_consecutive.index_of_getElem? (hheads.trans he)
  omega

/-- **Without a crash** the entries behind the snapshot are served if there are none, or if
the data of the snapshot fails to apply and the cache has no gap before them. -/
theorem serves_iff : x.Serves x.installed.done x.installed.storage ↔
    x.rd.entries = [] ∨ ¬ x.Applied ∧ x.Joined := by
  by_cases happlied : x.Applied
  · rw [x.serves_iff_of_applied happlied]
    simp [happlied]
  · rw [x.installed_of_not_applied happlied]
    by_cases hnil : x.rd.entries = []
    · exact ⟨fun _ => .inl hnil, fun _ => x.serves_of_nil hnil⟩
    · simp only [hnil, happlied, not_false_eq_true, true_and, false_or]
      exact ⟨fun h => by_contra fun hj => x.not_serves_of_gap hnil hj h, x.serves_of_joined hnil⟩

/-- **Installing a snapshot is safe only as long as nothing is written**, and without a crash
only if there are no entries behind it or its data fails to apply over a cache that joins. -/
theorem safe_iff (point : Option CrashPoint) : x.Safe point ↔ point = some .beforePersist ∨
      point = none ∧ (x.rd.entries = [] ∨ ¬ x.Applied ∧ x.Joined) := by
  cases point with
  | none =>
    show x.Serves _ _ ↔ _
    simp only [reduceCtorEq, false_or, true_and]
    exact x.serves_iff
  | some point =>
    show x.Survives (x.durableAt point) ↔ _
    simp only [Option.some.injEq, reduceCtorEq, false_and, or_false]
    constructor
    · intro h
      by_contra hne
      exact x.not_survives hne h
    · rintro rfl
      exact x.survives_beforePersist

def laggingDisk : RaftDisk where
  hardState := some ⟨6, 0, 7⟩
  log := (Table.empty.put 6 ⟨.normal, 6, 6, []⟩).put 7 ⟨.normal, 6, 7, []⟩
  applyState := some ⟨7, 5, 5⟩

def lagging : Installation where
  crc32 _ := 0
  regionID := 1
  region := none
  path := .inline
  old := ⟨fun _ => laggingDisk, Table.empty⟩
  storage := PeerStorage.recoverFromEngine laggingDisk
  rd := {
    hardState := ⟨7, 0, 20⟩
    entries := [⟨.normal, 7, 21, []⟩]
    snapshot := ⟨20, 7, none⟩ }
  path_valid := trivial
  hardState_eq := rfl
  truncatedIndex_le := le_rfl
  truncatedIndex_le_commit := by decide
  commit_le_lastIndex := by decide
  commit_lt_snapshot := by decide
  snapshot_le_commit := by decide
  commit_le_entries := by decide
  cache_consecutive := ⟨6, by decide⟩
  entries_consecutive := by decide

/-- **A mixture is recovered**: when the installation is done, a restart finds the snapshot
committed but the old truncated index, with the old entries in the log.  Without a
restart the entry behind the snapshot cannot be read. -/
theorem mixed_state_recovered :
    (lagging.recovered (lagging.durableAt .done)).hardState.commit = 20 ∧
      (lagging.recovered (lagging.durableAt .done)).applyState.truncatedIndex = 5 ∧
      (lagging.recovered (lagging.durableAt .done)).entriesIn (fun _ => 0)
        ((lagging.durableAt .done).cf 1) 6 8 0 =
        .ok [⟨.normal, 6, 6, []⟩, ⟨.normal, 6, 7, []⟩] ∧
      ¬ lagging.Safe (some .done) ∧
      lagging.installed.storage.entriesIn (fun _ => 0) (lagging.installed.done.cf 1) 21 22 0 =
        .error .unavailable ∧
      ¬ lagging.Safe none := by
  have hunserved : lagging.installed.storage.entriesIn (fun _ => 0) (lagging.installed.done.cf 1)
      21 22 0 = .error .unavailable := by rfl
  refine ⟨by rfl, by rfl, by rfl, lagging.not_survives (by decide), hunserved, ?_⟩
  intro h
  have hserve := h (fun _ => 0) 21 22 0 (by decide) (by decide) (by decide)
  rw [show lagging.regionID = 1 from rfl, hunserved] at hserve
  cases hserve

end Installation

end Raftstore
