/-
PD's Raft log after a snapshot: `internal/pd/raft_peer.go`, `raft_storage.go`.

`handleReady` moves the truncated index and leaves the cache as it is.  Old entries in the cache
then stand at wrong places until 1024 new ones have pushed them out (`cacheAll_eq`):
`answers_after_snapshot_iff` says exactly when the log is well formed.
-/
import Gookv.LogBacking

namespace PdSnapshotLog

open Raftstore List

inductive Fault
  | storage (err : StorageError)
  | outOfCache
  deriving DecidableEq

section

variable (disk : RaftDisk) (s : PeerStorage)

/-- From the cache if the range is within its first and its last index, and else from the engine;
positions in the cache are counted from its first index. -/
def read (lo hi : ℕ) : Except Fault (List Entry) :=
  match s.cached lo hi with
  | none => .ok (PDRaftStorage.readEntriesLoop disk lo (hi - lo))
  | some es =>
    if ∀ first ∈ s.entries.head?, hi - first.index ≤ s.entries.length then .ok es
    else .error .outOfCache

def entries (size : Entry → ℕ) (lo hi maxSize : ℕ) : Except Fault (List Entry) :=
  if hi < lo then .error (.storage (.invalidRange lo hi))
  else if lo < s.firstIndex then .error (.storage .compacted)
  else if s.lastIndex + 1 < hi then .error (.storage .unavailable)
  else (read disk s lo hi).map (limitSize size maxSize)

def term (i : ℕ) : Except Fault ℕ :=
  if i = s.applyState.truncatedIndex then .ok s.applyState.truncatedTerm
  else if i < s.firstIndex then .error (.storage .compacted)
  else if s.lastIndex < i then .error (.storage .unavailable)
  else
    match read disk s i (i + 1) with
    | .error fault => .error fault
    | .ok [] => .error (.storage .unavailable)
    | .ok (e :: _) => .ok e.term

/-- **The storage answers as the log `L`**, and never looks outside its cache. -/
structure Answers (L : LogicalLog Entry) : Prop where
  firstIndex : s.firstIndex = L.firstIndex
  lastIndex : s.lastIndex = L.lastIndex
  term : ∀ i, term disk s i =
    if i = L.truncatedIndex then .ok L.truncatedTerm
    else if i < L.firstIndex then .error (.storage .compacted)
    else if L.lastIndex < i then .error (.storage .unavailable)
    else .ok ((L.entry i).elim 0 Entry.term)
  entries : ∀ size lo hi maxSize, entries disk s size lo hi maxSize =
    if hi < lo then .error (.storage (.invalidRange lo hi))
    else if lo < L.firstIndex then .error (.storage .compacted)
    else if L.lastIndex + 1 < hi then .error (.storage .unavailable)
    else .ok (limitSize size maxSize (L.slice lo hi))

end

section

variable {disk : RaftDisk} {s : PeerStorage} {L : LogicalLog Entry} (h : Backs disk s L)
include h

theorem read_eq {lo hi : ℕ} (hlo : L.truncatedIndex < lo) (hle : lo ≤ hi)
    (hhi : hi ≤ L.lastIndex + 1) : read disk s lo hi = .ok (L.slice lo hi) := by
  rw [read]
  cases hc : s.cached lo hi with
  | none => exact congrArg _ (Except.ok.inj (h.readPD hlo hle hhi))
  | some es =>
    obtain ⟨f, hf⟩ := h.consecutive
    have hin : ∀ first ∈ s.entries.head?, hi - first.index ≤ s.entries.length := by
      intro first hfirst
      have hne : s.entries ≠ [] := by
        rintro hnil
        rw [hnil] at hfirst
        cases hfirst
      have hlast := h.lastIndex_succ hf hne
      rw [head?_eq_getElem?] at hfirst
      have hidx := hf.index_of_getElem? hfirst
      omega
    exact (if_pos hin).trans (congrArg _ (h.cached_eq hlo hle hhi hc))

theorem answers_of_backs : Answers disk s L where
  firstIndex := h.firstIndex
  lastIndex := h.last
  term i := by
    rw [term, h.truncatedIndex, h.truncatedTerm, h.firstIndex, h.last]
    refine ite_congr rfl (fun _ => rfl) fun _ => ite_congr rfl (fun _ => rfl) fun hlo =>
      ite_congr rfl (fun _ => rfl) fun hhi => ?_
    rw [LogicalLog.firstIndex] at hlo
    obtain ⟨e, he, -⟩ := h.stored i (by omega) (by omega)
    rw [read_eq h (by omega) (by omega) (by omega), LogicalLog.slice_singleton he, he]
    rfl
  entries size lo hi maxSize := by
    rw [entries, h.firstIndex, h.last]
    refine ite_congr rfl (fun _ => rfl) fun hle => ite_congr rfl (fun _ => rfl) fun hlo =>
      ite_congr rfl (fun _ => rfl) fun hhi => ?_
    rw [LogicalLog.firstIndex] at hlo
    rw [read_eq h (by omega) (by omega) (by omega)]
    rfl

end

/-! ### Saving what follows -/

def saveAll (r : ℕ) (p : RaftCF × PeerStorage) (rds : List Ready) : RaftCF × PeerStorage :=
  rds.foldl (fun p rd => p.2.saveReady r p.1 rd) p

def extendAll (L : LogicalLog Entry) (rds : List Ready) : LogicalLog Entry :=
  rds.foldl (fun L rd => rd.extend L) L

variable {r : ℕ} {cf : RaftCF} {s : PeerStorage} {L : LogicalLog Entry}

theorem backs_saveAll (rds : List Ready) (h : Backs (cf r) s L)
    (hc : Consecutive (L.lastIndex + 1) (rds.flatMap Ready.entries)) :
    Backs ((saveAll r (cf, s) rds).1 r) (saveAll r (cf, s) rds).2 (extendAll L rds) ∧
      (extendAll L rds).lastIndex = L.lastIndex + (rds.flatMap Ready.entries).length := by
  induction rds generalizing cf s L with
  | nil => exact ⟨h, rfl⟩
  | cons rd rds ih =>
    rw [flatMap_cons] at hc ⊢
    have hfront := hc.take rd.entries.length
    have hrest := hc.drop rd.entries.length
    rw [take_left] at hfront
    rw [drop_left] at hrest
    have hnext : rd.Allowed L ∧ (rd.extend L).lastIndex = L.lastIndex + rd.entries.length := by
      rcases hes : rd.entries with _ | ⟨e, es⟩
      · rw [Ready.Allowed, extend_of_nil hes, hes]
        exact ⟨trivial, rfl⟩
      · have hidx : e.index = L.lastIndex + 1 := by
          rw [hes] at hfront
          exact hfront.head
        rw [Ready.Allowed, lastIndex_extend hes, hes]
        refine ⟨⟨hidx ▸ hes ▸ hfront, by omega, .inr hidx⟩, ?_⟩
        omega
    obtain ⟨hb, hlast⟩ := @ih (s.saveReady r cf rd).1 (s.saveReady r cf rd).2 (rd.extend L)
      (by rw [saveReady_disk]; exact h.save hnext.1)
      (by rw [hnext.2, Nat.add_right_comm]; exact hrest)
    refine ⟨hb, ?_⟩
    rw [length_append, ← Nat.add_assoc, ← hnext.2]
    exact hlast

theorem backs_snapshot {disk : RaftDisk} (hindexed : ∀ i e, disk.log.get i = some e → e.index = i) :
    Backs disk { s with entries := [], persistedLastIndex := s.applyState.truncatedIndex }
      ⟨s.applyState.truncatedIndex, s.applyState.truncatedTerm, s.applyState.truncatedIndex,
        fun _ => none⟩ :=
  ⟨rfl, rfl, rfl, fun _ hlo hhi => absurd hhi (not_le.mpr hlo), hindexed, ⟨0, rfl⟩, nofun, le_rfl⟩

/-! ### What stays in the cache -/

def latest (es : List Entry) : List Entry := es.drop (es.length - maxCacheSize)

def cacheAll (cache : List Entry) (rds : List Ready) : List Entry :=
  rds.foldl (fun c rd => if rd.entries = [] then c else appendToCache c rd.entries) cache

def lastAll (last : ℕ) (rds : List Ready) : ℕ :=
  rds.foldl (fun n rd => rd.entries.getLast?.elim n fun e => max n e.index) last

/-- The cache and the last index that is persisted do not matter for what else is saved. -/
theorem saveAll_eq (cache : List Entry) (last : ℕ) (rds : List Ready) :
    saveAll r (cf, { s with entries := cache, persistedLastIndex := last }) rds =
      ((saveAll r (cf, s) rds).1, { (saveAll r (cf, s) rds).2 with
        entries := cacheAll cache rds, persistedLastIndex := lastAll last rds }) := by
  induction rds generalizing cf s cache last with
  | nil => rfl
  | cons rd rds ih =>
    have hnext := @ih (s.saveReady r cf rd).1 (s.saveReady r cf rd).2
      (if rd.entries = [] then cache else appendToCache cache rd.entries)
      (rd.entries.getLast?.elim last fun e => max last e.index)
    refine Eq.trans ?_ hnext
    show saveAll r (PeerStorage.saveReady _ r cf rd) rds = _
    simp only [PeerStorage.saveReady, PeerStorage.postPersist]
    cases rd.entries.getLast? <;> rfl

theorem le_lastAll (last : ℕ) (rds : List Ready) : last ≤ lastAll last rds := by
  induction rds generalizing last with
  | nil => exact le_rfl
  | cons rd rds ih =>
    refine le_trans ?_ (ih _)
    dsimp only
    cases rd.entries.getLast? with
    | none => exact le_rfl
    | some e => exact le_max_left last e.index

theorem index_le_lastAll {e : Entry} (last : ℕ) (rds : List Ready)
    (h : (rds.flatMap Ready.entries).getLast? = some e) : e.index ≤ lastAll last rds := by
  induction rds generalizing last with
  | nil => cases h
  | cons rd rds ih =>
    rw [flatMap_cons, getLast?_append] at h
    cases hrest : (rds.flatMap Ready.entries).getLast? with
    | some e' =>
      rw [hrest] at h
      cases h
      exact ih _ hrest
    | none =>
      rw [hrest] at h
      refine le_trans ?_ (le_lastAll _ rds)
      dsimp only
      rw [show rd.entries.getLast? = some e from h]
      exact le_max_right last e.index

theorem saveAll_applyState (rds : List Ready) :
    (saveAll r (cf, s) rds).2.applyState = s.applyState := by
  induction rds generalizing cf s with
  | nil => rfl
  | cons rd rds ih => exact @ih (s.saveReady r cf rd).1 (s.saveReady r cf rd).2

variable {cache es : List Entry} {next : ℕ}

theorem latest_append (es es' : List Entry) : latest (latest es ++ es') = latest (es ++ es') := by
  have hsplit : latest es ++ es' = (es ++ es').drop (es.length - maxCacheSize) :=
    (drop_append_of_le_length (Nat.sub_le _ _)).symm
  have hlen : es.length - maxCacheSize + (es.length + es'.length - (es.length - maxCacheSize) -
      maxCacheSize) = es.length + es'.length - maxCacheSize := by omega
  rw [hsplit, latest, latest, drop_drop, length_drop, length_append, hlen]

theorem latest_of_le {es' : List Entry} (h : maxCacheSize ≤ es'.length) :
    latest (es ++ es') = latest es' := by
  have hlen : (es ++ es').length - maxCacheSize = es.length + (es'.length - maxCacheSize) := by
    rw [length_append]
    omega
  rw [latest, hlen, drop_append, drop_of_length_le (Nat.le_add_right _ _),
    Nat.add_sub_cancel_left, nil_append, latest]

/-- The indexes in the cache grow, and stay below `next`. -/
def Below (next : ℕ) (cache : List Entry) : Prop :=
  (cache.map Entry.index).Pairwise (· < ·) ∧ ∀ e ∈ cache, e.index < next

theorem Below.sublist (h : Below next cache) (hsub : es.Sublist cache) : Below next es :=
  ⟨h.1.sublist (hsub.map _), fun e he => h.2 e (hsub.subset he)⟩

theorem Below.head_le {e : Entry} (h : Below next (e :: cache)) :
    e.index + (cache.length + 1) ≤ next := by
  induction cache generalizing e with
  | nil => exact h.2 e mem_cons_self
  | cons e' cache ih =>
    have hlt := (List.pairwise_cons.mp h.1).1 e'.index (by simp)
    have hle := ih (h.sublist (sublist_cons_self e _))
    rw [length_cons]
    omega

theorem Below.append (h : Below next cache) (hes : Consecutive next es) :
    Below (next + es.length) (cache ++ es) := by
  refine ⟨?_, fun e he => ?_⟩
  · rw [map_append, pairwise_append, hes]
    refine ⟨h.1, pairwise_lt_range', fun i hi j hj => ?_⟩
    obtain ⟨e, he, rfl⟩ := List.mem_map.mp hi
    exact (h.2 e he).trans_le (List.mem_range'_1.mp hj).1
  · rcases List.mem_append.mp he with he | he
    · exact (h.2 e he).trans_le (Nat.le_add_right _ _)
    · exact (hes.mem_bounds he).2

theorem appendToCache_below (h : Below next cache) (hne : cache ≠ []) (hes : Consecutive next es)
    (hes' : es ≠ []) : appendToCache cache es = latest (cache ++ es) := by
  match cache, es, hne, hes' with
  | c :: cache, e :: es, _, _ =>
    have hc := h.head_le
    have he : e.index = next := hes.head
    rw [appendToCache, if_neg (by omega), take_of_length_le (by rw [length_cons]; omega)]
    rfl

theorem cacheAll_eq (h : Below next cache) (hne : cache ≠ []) (rds : List Ready)
    (hc : Consecutive next (rds.flatMap Ready.entries)) : cacheAll cache rds =
      if rds.flatMap Ready.entries = [] then cache
      else latest (cache ++ rds.flatMap Ready.entries) := by
  induction rds generalizing cache next with
  | nil => rfl
  | cons rd rds ih =>
    rw [flatMap_cons] at hc ⊢
    by_cases hrd : rd.entries = []
    · rw [hrd, nil_append] at hc ⊢
      show cacheAll (if rd.entries = [] then _ else _) rds = _
      rw [if_pos hrd]
      exact ih h hne hc
    · have hfront := hc.take rd.entries.length
      have hrest := hc.drop rd.entries.length
      rw [take_left] at hfront
      rw [drop_left] at hrest
      have hnext : Below (next + rd.entries.length) (latest (cache ++ rd.entries)) :=
        (h.append hfront).sublist (drop_sublist _ _)
      have hlatest : latest (cache ++ rd.entries) ≠ [] := by
        have hpos := List.length_pos_iff.mpr hrd
        rw [latest, ne_eq, drop_eq_nil_iff, length_append, maxCacheSize]
        omega
      show cacheAll (if rd.entries = [] then _ else _) rds = _
      rw [if_neg hrd, appendToCache_below h hne hfront hrd, ih hnext hlatest hrest,
        if_neg (mt List.append_eq_nil_iff.mp fun hnil => hrd hnil.1)]
      by_cases hnil : rds.flatMap Ready.entries = []
      · rw [if_pos hnil, hnil, append_nil]
      · rw [if_neg hnil, latest_append, append_assoc]

/-- A cache that was empty holds at least the latest entries. -/
theorem latest_suffix_cacheAll (rds : List Ready)
    (hc : Consecutive next (rds.flatMap Ready.entries)) :
    latest (rds.flatMap Ready.entries) <:+ cacheAll [] rds := by
  induction rds generalizing next with
  | nil => exact suffix_rfl
  | cons rd rds ih =>
    rw [flatMap_cons] at hc ⊢
    by_cases hrd : rd.entries = []
    · rw [hrd, nil_append] at hc ⊢
      show _ <:+ cacheAll (if rd.entries = [] then _ else _) rds
      rw [if_pos hrd]
      exact ih hc
    · have hfront := hc.take rd.entries.length
      have hrest := hc.drop rd.entries.length
      rw [take_left] at hfront
      rw [drop_left] at hrest
      have hbelow : Below (next + rd.entries.length) rd.entries := by
        simpa using @Below.append [] rd.entries next ⟨.nil, nofun⟩ hfront
      show _ <:+ cacheAll (if rd.entries = [] then _ else rd.entries) rds
      rw [if_neg hrd, cacheAll_eq hbelow hrd rds hrest]
      split
      · next hnil =>
        rw [hnil, append_nil]
        exact drop_suffix _ _
      · exact suffix_rfl

/-- A snapshot past the last index and what `applySnapshotFunc` does with its data, and the Readys
from it on.  The indexes in a cache always grow. -/
structure Install where
  clusterID : ℕ
  cf : RaftCF
  storage : PeerStorage
  data : List UInt8
  applySnapshotFunc : Option (List UInt8 → Bool)
  index : ℕ
  term : ℕ
  readys : List Ready
  indexed : ∀ i e, (cf clusterID).log.get i = some e → e.index = i
  growing : (storage.entries.map Entry.index).Pairwise (· < ·)
  above : storage.lastIndex < index
  untruncated : storage.applyState.truncatedIndex < index
  contiguous : Consecutive (index + 1) (readys.flatMap Ready.entries)

namespace Install

variable (x : Install)

def saved : List Entry := x.readys.flatMap Ready.entries

/-- The snapshot has data, and the function that applies it is set and returns no error. -/
def applied : Bool := !x.data.isEmpty && x.applySnapshotFunc.any (· x.data)

def final : RaftCF × PeerStorage :=
  saveAll x.clusterID (x.cf,
    if x.applied then x.storage.setApplyState ⟨x.index, x.index, x.term⟩ else x.storage) x.readys

/-- The log that the snapshot and the saved entries describe. -/
def log : LogicalLog Entry := extendAll ⟨x.index, x.term, x.index, fun _ => none⟩ x.readys

/-- What is saved when the snapshot leaves an empty cache and its own index. -/
def cleared : RaftCF × PeerStorage :=
  saveAll x.clusterID (x.cf, { x.storage.setApplyState ⟨x.index, x.index, x.term⟩ with
    entries := [], persistedLastIndex := x.index }) x.readys

variable {x}

theorem backs_cleared : Backs (x.cleared.1 x.clusterID) x.cleared.2 x.log ∧
    x.log.lastIndex = x.index + x.saved.length :=
  backs_saveAll x.readys (backs_snapshot (s := x.storage.setApplyState ⟨x.index, x.index, x.term⟩)
    x.indexed) x.contiguous

theorem final_eq (happlied : x.applied = true) : x.final = (x.cleared.1,
    { x.cleared.2 with
      entries := cacheAll x.storage.entries x.readys
      persistedLastIndex := lastAll x.storage.persistedLastIndex x.readys }) := by
  rw [final, if_pos happlied]
  exact saveAll_eq (s := { x.storage.setApplyState ⟨x.index, x.index, x.term⟩ with
    entries := [], persistedLastIndex := x.index }) _ _ x.readys

theorem cleared_entries : x.cleared.2.entries = cacheAll [] x.readys := by
  rw [cleared, saveAll_eq]

theorem below : Below x.index x.storage.entries := by
  refine ⟨x.growing, fun e he => ?_⟩
  have habove := x.above
  have hgrowing := x.growing
  obtain ⟨l, hl⟩ := Option.ne_none_iff_exists'.mp
    (mt List.getLast?_eq_none_iff.mp (ne_nil_of_mem he))
  obtain ⟨es, hes⟩ := List.getLast?_eq_some_iff.mp hl
  rw [PeerStorage.lastIndex, hl] at habove
  rw [hes] at he hgrowing
  rw [map_append, pairwise_append] at hgrowing
  rcases List.mem_append.mp he with he | he
  · exact (hgrowing.2.2 _ (mem_map_of_mem he) l.index (by simp)).trans habove
  · rwa [List.mem_singleton.mp he]

theorem cacheAll_old (hcache : x.storage.entries ≠ []) (hne : x.saved ≠ []) :
    cacheAll x.storage.entries x.readys = latest (x.storage.entries ++ x.saved) := by
  have hbelow : Below (x.index + 1) x.storage.entries :=
    ⟨below.1, fun e he => (below.2 e he).trans (Nat.lt_succ_self _)⟩
  rw [cacheAll_eq hbelow hcache x.readys x.contiguous]
  exact if_neg hne

/-- Entries that are in the cleared cache too back the same log. -/
theorem backs_final (happlied : x.applied = true) (hne : x.saved ≠ [])
    (hcons : ∃ first, Consecutive first (cacheAll x.storage.entries x.readys))
    (hmem : cacheAll x.storage.entries x.readys ⊆ x.cleared.2.entries)
    (hlast : (cacheAll x.storage.entries x.readys).getLast? = x.saved.getLast?) :
    Backs (x.final.1 x.clusterID) x.final.2 x.log := by
  obtain ⟨hb, hlen⟩ := backs_cleared (x := x)
  obtain ⟨e, he⟩ := Option.ne_none_iff_exists'.mp (mt List.getLast?_eq_none_iff.mp hne)
  have hidx := x.contiguous.getLast? he
  rw [final_eq happlied]
  exact
    { truncatedIndex := hb.truncatedIndex
      truncatedTerm := hb.truncatedTerm
      last := by
        rw [hlen, PeerStorage.lastIndex, hlast, he]
        show e.index = x.index + x.saved.length
        rw [saved]
        omega
      stored := hb.stored
      indexed := hb.indexed
      consecutive := hcons
      cached := fun e' he' => hb.cached e' (hmem he')
      high := by
        have hle := index_le_lastAll x.storage.persistedLastIndex x.readys he
        rw [hlen, saved]
        show _ ≤ lastAll x.storage.persistedLastIndex x.readys
        omega }

theorem answers_of_applied (happlied : x.applied = true) (hne : x.saved ≠ [])
    (hcache : x.storage.entries = [] ∨ maxCacheSize ≤ x.saved.length) :
    Answers (x.final.1 x.clusterID) x.final.2 x.log := by
  have hsuffix := latest_suffix_cacheAll x.readys x.contiguous
  have hlatest : (latest x.saved).getLast? = x.saved.getLast? := by
    have hpos := List.length_pos_iff.mpr hne
    rw [latest, getLast?_drop, if_neg (by rw [maxCacheSize]; omega)]
  by_cases hold : x.storage.entries = []
  · refine answers_of_backs (backs_final happlied hne ?_ ?_ ?_)
    · rw [hold, ← cleared_entries]
      exact backs_cleared.1.consecutive
    · rw [hold, cleared_entries]
      exact List.Subset.refl _
    · obtain ⟨front, hfront⟩ := hsuffix
      obtain ⟨e, he⟩ := Option.ne_none_iff_exists'.mp (mt List.getLast?_eq_none_iff.mp hne)
      rw [hold, ← hfront, getLast?_append, ← saved, hlatest, he]
      rfl
  · -- the new entries have pushed the old ones out
    have hfull : cacheAll x.storage.entries x.readys = latest x.saved := by
      rw [cacheAll_old hold hne]
      exact latest_of_le (hcache.resolve_left hold)
    refine answers_of_backs (backs_final happlied hne ?_ ?_ ?_)
    · rw [hfull]
      exact ⟨_, x.contiguous.drop _⟩
    · rw [hfull, cleared_entries]
      exact hsuffix.subset
    · rw [hfull, hlatest]

theorem truncatedIndex_log : x.log.truncatedIndex = x.index := by
  rw [← backs_cleared.1.truncatedIndex, cleared, saveAll_applyState]
  rfl

/-- An old entry is left at the front of the cache, and entry `index + 1` is looked up behind its
place. -/
theorem not_answers_of_cached (happlied : x.applied = true) (hne : x.saved ≠ [])
    (hcache : x.storage.entries ≠ []) (hlt : x.saved.length < maxCacheSize) :
    ¬ Answers (x.final.1 x.clusterID) x.final.2 x.log := by
  intro h
  obtain ⟨hb, hlen⟩ := backs_cleared (x := x)
  have hpos := List.length_pos_iff.mpr hne
  have hold := List.length_pos_iff.mpr hcache
  -- what the log has at `index + 1`
  obtain ⟨e, hentry, hstored⟩ := hb.stored (x.index + 1) (by rw [truncatedIndex_log]; omega) (by omega)
  have hindex := hb.indexed _ _ hstored
  -- what is left of the old entries
  obtain ⟨d, hd⟩ : ∃ d, d = (x.storage.entries ++ x.saved).length - maxCacheSize := ⟨_, rfl⟩
  have hdlt : d < x.storage.entries.length := by
    rw [hd, length_append]
    omega
  have hentries : x.final.2.entries = x.storage.entries.drop d ++ x.saved := by
    rw [final_eq happlied]
    show cacheAll _ _ = _
    rw [cacheAll_old hcache hne, latest, ← hd, drop_append_of_le_length hdlt.le]
  obtain ⟨e₀, rest, hdrop⟩ := exists_cons_of_ne_nil (mt List.drop_eq_nil_iff.mp hdlt.not_ge)
  have hle := (hdrop ▸ below.sublist (drop_sublist d _) : Below x.index (e₀ :: rest)).head_le
  rw [hdrop] at hentries
  have hread := h.entries (fun _ => 0) (x.index + 1) (x.index + 2) 0
  rw [entries, h.firstIndex, h.lastIndex, LogicalLog.firstIndex, truncatedIndex_log, hlen,
    if_neg (by omega), if_neg (by omega), if_neg (by omega), if_neg (by omega), if_neg (by omega),
    if_neg (by omega), LogicalLog.slice_singleton hentry] at hread
  obtain ⟨l, hl⟩ := Option.ne_none_iff_exists'.mp (mt List.getLast?_eq_none_iff.mp hne)
  have hlast := x.contiguous.getLast? hl
  rw [← saved] at hlast
  have hcached : x.final.2.cached (x.index + 1) (x.index + 2) =
      some (((e₀ :: rest ++ x.saved).drop (x.index + 1 - e₀.index)).take 1) := by
    have hwithin : e₀.index ≤ x.index + 1 ∧ x.index + 2 ≤ l.index + 1 := ⟨by omega, by omega⟩
    rw [PeerStorage.cached, hentries, getLast?_append, hl]
    show (if _ then _ else none) = _
    rw [if_pos hwithin, Nat.add_sub_add_left]
  rw [read, hcached] at hread
  dsimp only at hread
  split at hread
  · -- the entry at that place has another index
    have htake : ((e₀ :: rest ++ x.saved).drop (x.index + 1 - e₀.index)).take 1 = [e] := by
      have hzero : ∀ es, limitSize (fun _ => 0) 0 es = es := fun es => by cases es <;> rfl
      have hok := Except.ok.inj hread
      rwa [hzero, hzero] at hok
    have hget := congrArg List.head? htake
    rw [head?_take, if_neg Nat.one_ne_zero, head?_drop] at hget
    rw [getElem?_append_right (by rw [length_cons]; omega)] at hget
    have hother := x.contiguous.index_of_getElem? hget
    rw [length_cons] at hother
    omega
  · cases hread

theorem lastIndex_saveAll (rds : List Ready) (h : rds.flatMap Ready.entries = []) :
    (saveAll r (cf, s) rds).2.lastIndex = s.lastIndex := by
  induction rds generalizing cf s with
  | nil => rfl
  | cons rd rds ih =>
    rw [flatMap_cons, append_eq_nil_iff] at h
    have hnext := @ih (s.saveReady r cf rd).1 (s.saveReady r cf rd).2 h.2
    refine hnext.trans ?_
    simp only [PeerStorage.saveReady, PeerStorage.postPersist, h.1, PeerStorage.lastIndex]
    rfl

end Install

/-- **After a snapshot the log is well formed exactly if the snapshot was applied, entries follow
it, and the cache was empty or is filled with new entries.** -/
theorem answers_after_snapshot_iff (x : Install) : x.log.lastIndex = x.index + x.saved.length ∧
    (Answers (x.final.1 x.clusterID) x.final.2 x.log ↔ x.applied = true ∧ x.saved ≠ [] ∧
      (x.storage.entries = [] ∨ maxCacheSize ≤ x.saved.length)) := by
  obtain ⟨-, hlen⟩ := Install.backs_cleared (x := x)
  refine ⟨hlen, fun h => ?_, fun ⟨happlied, hne, hcache⟩ =>
    Install.answers_of_applied happlied hne hcache⟩
  have happlied : x.applied = true := by
    by_contra hnot
    have hfirst := h.firstIndex
    rw [PeerStorage.firstIndex, LogicalLog.firstIndex, Install.truncatedIndex_log, Install.final,
      saveAll_applyState, if_neg hnot] at hfirst
    have := x.untruncated
    omega
  have hne : x.saved ≠ [] := by
    intro hnil
    have hlast := h.lastIndex
    rw [hlen, hnil, Install.final, Install.lastIndex_saveAll x.readys hnil, if_pos happlied] at hlast
    exact x.above.ne hlast
  refine ⟨happlied, hne, ?_⟩
  by_contra hcached
  rw [not_or, not_le] at hcached
  exact Install.not_answers_of_cached happlied hne hcached.1 hcached.2 h

/-- A storage that was recovered from an empty engine, and the same snapshot and entry. -/
def recovered : Install where
  clusterID := 1
  cf := fun _ => {}
  storage := PDRaftStorage.new
  data := [0]
  applySnapshotFunc := some fun _ => true
  index := 5
  term := 2
  readys := [⟨{}, [⟨.normal, 2, 6, []⟩]⟩]
  indexed i e h := by cases h
  growing := .nil
  above := by decide
  untruncated := by decide
  contiguous := rfl

theorem answers_recovered : recovered.log.lastIndex = 6 ∧
    Answers (recovered.final.1 1) recovered.final.2 recovered.log :=
  ⟨rfl, (answers_after_snapshot_iff recovered).2.mpr ⟨rfl, by decide, .inl rfl⟩⟩

/-- A new storage saves the entry 1; a snapshot at index 5 comes, and then the entry 6. -/
def oldEntry : Install where
  clusterID := 1
  cf := (PDRaftStorage.new.saveReady 1 (fun _ => {}) ⟨{}, [⟨.normal, 1, 1, []⟩]⟩).1
  storage := (PDRaftStorage.new.saveReady 1 (fun _ => {}) ⟨{}, [⟨.normal, 1, 1, []⟩]⟩).2
  data := [0]
  applySnapshotFunc := some fun _ => true
  index := 5
  term := 2
  readys := [⟨{}, [⟨.normal, 2, 6, []⟩]⟩]
  indexed i e h := by
    change (Table.empty.put 1 _).get i = some e at h
    rw [Table.get_put] at h
    split at h
    · cases h
      exact Eq.symm ‹_›
    · cases h
  growing := by decide
  above := by decide
  untruncated := by decide
  contiguous := rfl

/-- The term of entry 6 is looked up at position 5 of a cache of two entries. -/
theorem term_outside_cache :
    oldEntry.final.2.entries = [⟨.normal, 1, 1, []⟩, ⟨.normal, 2, 6, []⟩] ∧
      term (oldEntry.final.1 1) oldEntry.final.2 6 = .error .outOfCache := by
  constructor <;> decide +kernel

end PdSnapshotLog
