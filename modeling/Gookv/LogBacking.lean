/-
How the storage of a Raft log represents the log.
-/
import Gookv.StepSystem
import Gookv.LogicalLog
import Gookv.RaftStorage

namespace Raftstore

open List LogicalLog PeerStorage

def Consecutive (first : ℕ) (es : List Entry) : Prop :=
  es.map Entry.index = List.range' first es.length

instance (first : ℕ) (es : List Entry) : Decidable (Consecutive first es) :=
  inferInstanceAs (Decidable (_ = _))

namespace Consecutive

variable {first : ℕ} {es es' : List Entry} {e : Entry}

theorem index_of_getElem? {n : ℕ} (h : Consecutive first es) (he : es[n]? = some e) :
    e.index = first + n := by
  have hmap : (es.map Entry.index)[n]? = some e.index := by rw [getElem?_map, he]; rfl
  rw [h, getElem?_eq_some_iff] at hmap
  obtain ⟨hn, heq⟩ := hmap
  rw [getElem_range'] at heq
  omega

theorem mem_bounds (h : Consecutive first es) (he : e ∈ es) :
    first ≤ e.index ∧ e.index < first + es.length := by
  have hmem : e.index ∈ es.map Entry.index := mem_map_of_mem he
  rw [h, mem_range'_1] at hmem
  exact hmem

theorem head (h : Consecutive first (e :: es)) : e.index = first :=
  index_of_getElem? (n := 0) h rfl

theorem tail (h : Consecutive first (e :: es)) : Consecutive (first + 1) es := by
  have hcons : e.index :: es.map Entry.index = first :: range' (first + 1) es.length := h
  exact (cons.inj hcons).2

section
variable (h : Consecutive first es)
include h

theorem getLast? (he : es.getLast? = some e) : e.index + 1 = first + es.length := by
  rw [getLast?_eq_getElem?] at he
  have hidx := h.index_of_getElem? he
  have hlen : es.length - 1 < es.length := (List.getElem?_eq_some_iff.mp he).1
  omega

theorem drop (n : ℕ) : Consecutive (first + n) (es.drop n) := by
  rw [Consecutive, map_drop, h, length_drop, drop_range', Nat.mul_one]

theorem take (n : ℕ) : Consecutive first (es.take n) := by
  rw [Consecutive, map_take, h, length_take]
  rcases le_total n es.length with hn | hn
  · obtain ⟨k, hk⟩ := Nat.exists_eq_add_of_le hn
    rw [hk, ← range'_append_1, take_left' length_range', min_eq_left (by omega)]
  · rw [take_of_length_le (by simpa using hn), min_eq_right hn]

theorem append (h' : Consecutive (first + es.length) es') : Consecutive first (es ++ es') := by
  rw [Consecutive, map_append, h, h', length_append]
  exact range'_append_1

end

end Consecutive

theorem commitBatch_apply (ops : List WriteOp) (cf : RaftCF) (r : ℕ) :
    commitBatch cf ops r = (ops.filter fun op => op.regionID = r).foldl RaftDisk.put (cf r) := by
  induction ops generalizing cf with
  | nil => rfl
  | cons op ops ih =>
    rw [commitBatch, foldl_cons, ← commitBatch, ih]
    by_cases hr : op.regionID = r
    · rw [filter_cons_of_pos (by simpa using hr), foldl_cons, hr, Function.update_self]
    · rw [filter_cons_of_neg (by simpa using hr), Function.update_of_ne (Ne.symm hr)]

theorem regionID_of_mem_readyOps {r : ℕ} {rd : Ready} {op : WriteOp} (h : op ∈ readyOps r rd) :
    op.regionID = r := by
  rw [readyOps, mem_append, mem_map] at h
  rcases h with h | ⟨e, -, rfl⟩
  · split at h
    · exact absurd h (by simp)
    · rw [mem_singleton.mp h]
      rfl
  · rfl

def putEntries (log : Table ℕ Entry) (es : List Entry) : Table ℕ Entry :=
  es.foldl (fun log e => log.put e.index e) log

theorem foldl_put_entries (es : List Entry) (r : ℕ) (disk : RaftDisk) :
    (es.map (WriteOp.entry r)).foldl RaftDisk.put disk =
      { disk with log := putEntries disk.log es } := by
  induction es generalizing disk with
  | nil => rfl
  | cons e es ih => rw [map_cons, foldl_cons, ih]; rfl

def RaftDisk.afterReady (disk : RaftDisk) (rd : Ready) : RaftDisk :=
  { disk with
    hardState := if rd.hardState = {} then disk.hardState else some rd.hardState
    log := putEntries disk.log rd.entries }

theorem foldl_put_readyOps (r : ℕ) (rd : Ready) (disk : RaftDisk) :
    (readyOps r rd).foldl RaftDisk.put disk = disk.afterReady rd := by
  rw [readyOps, foldl_append, foldl_put_entries, RaftDisk.afterReady]
  split <;> rfl

theorem saveReady_disk (s : PeerStorage) (r : ℕ) (cf : RaftCF) (rd : Ready) :
    (s.saveReady r cf rd).1 r = (cf r).afterReady rd := by
  rw [← foldl_put_readyOps r rd (cf r)]
  show commitBatch cf (readyOps r rd) r = _
  rw [commitBatch_apply, filter_eq_self.mpr]
  intro op hop
  exact decide_eq_true (regionID_of_mem_readyOps hop)

variable {es : List Entry} {first : ℕ}

theorem get_putEntries (h : Consecutive first es)
    (log : Table ℕ Entry) (i : ℕ) : (putEntries log es).get i =
      if first ≤ i ∧ i < first + es.length then es[i - first]? else log.get i := by
  induction es generalizing first log with
  | nil =>
    rw [if_neg (by simp)]
    rfl
  | cons e es ih =>
    have hput : putEntries log (e :: es) = putEntries (log.put first e) es := by
      rw [← h.head]
      rfl
    rw [hput, ih h.tail, Table.get_put]
    by_cases hi : i = first
    · subst hi
      simp
    · rw [if_neg hi]
      by_cases hin : first + 1 ≤ i ∧ i < first + 1 + es.length
      · rw [if_pos hin, if_pos (by simp only [length_cons]; omega),
          show i - first = (i - (first + 1)) + 1 by omega, getElem?_cons_succ]
      · rw [if_neg hin, if_neg (by simp only [length_cons]; omega)]

/-! ### Memory and engine hold the log -/

section
variable {disk : RaftDisk} {L : LogicalLog Entry}
  (hstored : ∀ i, L.truncatedIndex < i → i ≤ L.lastIndex →
    ∃ e, L.entry i = some e ∧ disk.log.get i = some e)
include hstored

theorem readLoop_of_stored (n : ℕ) : ∀ lo, L.truncatedIndex < lo → lo + n ≤ L.lastIndex + 1 →
    readEntriesLoop disk lo n = .ok ((List.range' lo n).filterMap L.entry) := by
  induction n with
  | zero =>
    intro lo _ _
    rfl
  | succ n ih =>
    intro lo hlo hhi
    obtain ⟨e, hL, hdisk⟩ := hstored lo hlo (by omega)
    rw [readEntriesLoop, hdisk, ih (lo + 1) (by omega) (by omega), range'_succ,
      filterMap_cons, hL]
    rfl

theorem read_of_stored {lo hi : ℕ} (hlo : L.truncatedIndex < lo) (hle : lo ≤ hi)
    (hhi : hi ≤ L.lastIndex + 1) : readEntriesFromEngine disk lo hi = .ok (L.slice lo hi) := by
  rw [readEntriesFromEngine]
  split
  · -- nothing is stored at `lo`, so `lo` is past the end and the range is empty
    rename_i hnone
    rcases Nat.eq_or_lt_of_le hle with rfl | hlt
    · rw [LogicalLog.slice, Nat.sub_self]
      rfl
    · obtain ⟨e, -, hdisk⟩ := hstored lo hlo (by omega)
      rw [hdisk] at hnone
      cases hnone
  · exact readLoop_of_stored hstored (hi - lo) lo hlo (by omega)

end

/-- The engine has every entry of the log `L`, and the cache agrees where it is not truncated. -/
structure Backs (disk : RaftDisk) (s : PeerStorage) (L : LogicalLog Entry) : Prop where
  truncatedIndex : s.applyState.truncatedIndex = L.truncatedIndex
  truncatedTerm : s.applyState.truncatedTerm = L.truncatedTerm
  last : s.lastIndex = L.lastIndex
  stored : ∀ i, L.truncatedIndex < i → i ≤ L.lastIndex →
    ∃ e, L.entry i = some e ∧ disk.log.get i = some e
  indexed : ∀ i e, disk.log.get i = some e → e.index = i
  consecutive : ∃ first, Consecutive first s.entries
  cached : ∀ e ∈ s.entries, L.truncatedIndex < e.index → disk.log.get e.index = some e
  high : L.lastIndex ≤ s.persistedLastIndex

namespace Backs

variable {disk : RaftDisk} {s : PeerStorage} {L : LogicalLog Entry}

section
variable (h : Backs disk s L) {e : Entry} {i hi lo : ℕ}
include h

theorem firstIndex : s.firstIndex = L.firstIndex := by
  rw [PeerStorage.firstIndex, LogicalLog.firstIndex, h.truncatedIndex]

theorem entry_of_get (hlo : L.truncatedIndex < i)
    (hhi : i ≤ L.lastIndex) (he : disk.log.get i = some e) : L.entry i = some e := by
  obtain ⟨e', hL, hdisk⟩ := h.stored i hlo hhi
  rw [hL, ← hdisk, he]

theorem read (hlo : L.truncatedIndex < lo) (hle : lo ≤ hi)
    (hhi : hi ≤ L.lastIndex + 1) : readEntriesFromEngine disk lo hi = .ok (L.slice lo hi) :=
  read_of_stored h.stored hlo hle hhi

theorem readPD (hlo : L.truncatedIndex < lo) (hle : lo ≤ hi)
    (hhi : hi ≤ L.lastIndex + 1) :
    PDRaftStorage.readEntriesFromEngine disk lo hi = .ok (L.slice lo hi) := by
  have hloop : ∀ n lo, L.truncatedIndex < lo → lo + n ≤ L.lastIndex + 1 →
      PDRaftStorage.readEntriesLoop disk lo n = (range' lo n).filterMap L.entry := by
    intro n
    induction n with
    | zero =>
      intro lo _ _
      rfl
    | succ n ih =>
      intro lo hlo hhi
      obtain ⟨e, hL, hdisk⟩ := h.stored lo hlo (by omega)
      rw [PDRaftStorage.readEntriesLoop, hdisk, range'_succ, filterMap_cons, hL,
        ← ih (lo + 1) (by omega) (by omega)]
  rw [PDRaftStorage.readEntriesFromEngine, hloop (hi - lo) lo hlo (by omega)]
  rfl

theorem cached_eq
    (hlo : L.truncatedIndex < lo) (hle : lo ≤ hi) (hhi : hi ≤ L.lastIndex + 1)
    (hes : s.cached lo hi = some es) : es = L.slice lo hi := by
  obtain ⟨first, hcons⟩ := h.consecutive
  unfold PeerStorage.cached at hes
  split at hes
  · rename_i f l hf hl
    split at hes
    · rename_i hin
      rw [Option.some_inj] at hes
      subst hes
      have hfirst : f.index = first := by
        rw [head?_eq_getElem?] at hf
        exact hcons.index_of_getElem? hf
      have hlast := hcons.getLast? hl
      rw [hfirst] at hin ⊢
      have hseg := (hcons.drop (lo - first)).take (hi - lo)
      rw [Nat.add_sub_cancel' hin.1] at hseg
      refine (LogicalLog.slice_eq_of_map Entry.index ?_ ?_).symm
      · rw [hseg, length_take, length_drop]
        congr 1
        omega
      · intro e he
        have hb := hseg.mem_bounds he
        rw [length_take, length_drop] at hb
        exact h.entry_of_get (by omega) (by omega)
          (h.cached e (mem_of_mem_drop (mem_of_mem_take he)) (by omega))
    · cases hes
  · cases hes

theorem entriesWith_eq {read : ℕ → ℕ → Except StorageError (List Entry)}
    (hread : read lo hi = .ok (L.slice lo hi)) (size : Entry → ℕ) (maxSize : ℕ)
    (hlo : L.truncatedIndex < lo) (hle : lo ≤ hi) (hhi : hi ≤ L.lastIndex + 1) :
    s.entriesWith read size lo hi maxSize = .ok (limitSize size maxSize (L.slice lo hi)) := by
  have hfirst : ¬ lo < s.firstIndex := by
    rw [h.firstIndex, LogicalLog.firstIndex]
    omega
  rw [PeerStorage.entriesWith, if_neg (by omega), if_neg hfirst, if_neg (by rw [h.last]; omega)]
  cases hc : s.cached lo hi with
  | none => rw [hread]; rfl
  | some es => rw [h.cached_eq hlo hle hhi hc]

theorem term_eq (hlo : L.truncatedIndex < i)
    (hhi : i ≤ L.lastIndex) (he : L.entry i = some e) : s.term disk i = .ok e.term := by
  have hslice : L.slice i (i + 1) = [e] := LogicalLog.slice_singleton he
  have hfirst : ¬ i < s.firstIndex := by
    rw [h.firstIndex, LogicalLog.firstIndex]
    omega
  rw [PeerStorage.term, if_neg (by rw [h.truncatedIndex]; omega), if_neg hfirst,
    if_neg (by rw [h.last]; omega), h.read hlo (by omega) (by omega), hslice]
  cases hc : s.cached i (i + 1) with
  | none => rfl
  | some es =>
    rw [h.cached_eq hlo (by omega) (by omega) hc, hslice]

end

end Backs

/-! ### Saving a Ready -/

def Ready.Allowed (L : LogicalLog Entry) (rd : Ready) : Prop :=
  match rd.entries with
  | [] => True
  | e :: _ => Consecutive e.index rd.entries ∧ e.index ≤ L.lastIndex + 1 ∧
      (L.truncatedIndex < e.index ∨ e.index = L.lastIndex + 1)

instance (L : LogicalLog Entry) (rd : Ready) : Decidable (rd.Allowed L) :=
  match h : rd.entries with
  | [] => .isTrue (by rw [Ready.Allowed, h]; trivial)
  | e :: _ => decidable_of_iff (Consecutive e.index rd.entries ∧ e.index ≤ L.lastIndex + 1 ∧
      (L.truncatedIndex < e.index ∨ e.index = L.lastIndex + 1)) (by rw [Ready.Allowed, h])

def Ready.extend (rd : Ready) (L : LogicalLog Entry) : LogicalLog Entry :=
  match rd.entries with
  | [] => L
  | e :: _ => L.splice e.index rd.entries

theorem appendToCache_spec {f : ℕ} {cache : List Entry} (hcache : Consecutive f cache)
    (hes : Consecutive first es) (hne : es ≠ []) (hgap : cache ≠ [] → first ≤ f + cache.length) :
    (∃ f', Consecutive f' (appendToCache cache es)) ∧
      (appendToCache cache es).getLast? = es.getLast? ∧
      ∀ e ∈ appendToCache cache es, e ∈ es ∨ e ∈ cache ∧ e.index < first := by
  match cache, es, hne with
  | [], es, _ => exact ⟨⟨first, hes⟩, rfl, fun e he => .inl he⟩
  | c :: cache, e :: es, _ =>
    have hc : c.index = f := hcache.head
    have he : e.index = first := hes.head
    have hgap := hgap (by simp)
    -- the list before it is cut to the cache size
    have hkept : ∀ kept, (∃ f', Consecutive f' kept) → kept.getLast? = (e :: es).getLast? →
        (∀ x ∈ kept, x ∈ e :: es ∨ x ∈ c :: cache ∧ x.index < first) →
        (∃ f', Consecutive f' (kept.drop (kept.length - maxCacheSize))) ∧
          (kept.drop (kept.length - maxCacheSize)).getLast? = (e :: es).getLast? ∧
          ∀ x ∈ kept.drop (kept.length - maxCacheSize),
            x ∈ e :: es ∨ x ∈ c :: cache ∧ x.index < first := by
      rintro kept ⟨f', hf'⟩ hlast hmem
      refine ⟨⟨_, hf'.drop _⟩, ?_, fun x hx => hmem x (mem_of_mem_drop hx)⟩
      have hlen : kept.length ≠ 0 := by
        intro h0
        rw [length_eq_zero_iff.mp h0] at hlast
        cases getLast?_eq_none_iff.mp hlast.symm
      rw [getLast?_drop, if_neg (by rw [maxCacheSize]; omega), hlast]
    rw [appendToCache]
    apply hkept
    · split
      · exact ⟨first, hes⟩
      · rename_i hlt
        refine ⟨f, (hcache.take _).append ?_⟩
        rw [length_take, min_eq_left (by omega), hc, he]
        rwa [Nat.add_sub_cancel' (by omega)]
    · split
      · rfl
      · rw [getLast?_append_cons]
    · intro x hx
      split at hx
      · exact .inl hx
      · rcases mem_append.mp hx with hx | hx
        · have hb := (hcache.take _).mem_bounds hx
          rw [length_take] at hb
          exact .inr ⟨mem_of_mem_take hx, by omega⟩
        · exact .inl hx

section

variable {disk : RaftDisk} {s : PeerStorage} {L : LogicalLog Entry} {rd : Ready} {e : Entry}
  {es : List Entry}

theorem log_afterReady_of_nil (hes : rd.entries = []) : (disk.afterReady rd).log = disk.log := by
  show putEntries disk.log rd.entries = disk.log
  rw [hes]
  rfl

theorem extend_of_nil (hes : rd.entries = []) : rd.extend L = L := by
  rw [Ready.extend, hes]

theorem extend_of_cons (hes : rd.entries = e :: es) :
    rd.extend L = L.splice e.index rd.entries := by
  rw [Ready.extend, hes]

theorem lastIndex_extend (hes : rd.entries = e :: es) :
    (rd.extend L).lastIndex = e.index + rd.entries.length - 1 := by
  rw [extend_of_cons hes]
  rfl

theorem Ready.Allowed.of_cons (hrd : rd.Allowed L) (hes : rd.entries = e :: es) :
    Consecutive e.index rd.entries ∧ e.index ≤ L.lastIndex + 1 ∧
      (L.truncatedIndex < e.index ∨ e.index = L.lastIndex + 1) := by
  rw [Ready.Allowed, hes] at hrd
  rw [hes]
  exact hrd

theorem get_afterReady (hrd : rd.Allowed L) (hes : rd.entries = e :: es) (i : ℕ) :
    (disk.afterReady rd).log.get i =
      if e.index ≤ i ∧ i < e.index + rd.entries.length then rd.entries[i - e.index]?
      else disk.log.get i :=
  get_putEntries (hrd.of_cons hes).1 disk.log i

theorem get_afterReady_of_mem {x : Entry} (hrd : rd.Allowed L) (hes : rd.entries = e :: es)
    (hx : x ∈ rd.entries) : (disk.afterReady rd).log.get x.index = some x := by
  obtain ⟨n, hn⟩ := mem_iff_getElem?.mp hx
  have hidx := (hrd.of_cons hes).1.index_of_getElem? hn
  have hlen : n < rd.entries.length := (List.getElem?_eq_some_iff.mp hn).1
  rw [get_afterReady hrd hes, if_pos (by omega), hidx, Nat.add_sub_cancel_left, hn]

theorem Backs.lastIndex_succ {f : ℕ} (h : Backs disk s L) (hf : Consecutive f s.entries)
    (hs : s.entries ≠ []) : L.lastIndex + 1 = f + s.entries.length := by
  obtain ⟨l, hl⟩ := Option.ne_none_iff_exists'.mp (mt List.getLast?_eq_none_iff.mp hs)
  have hlast := h.last
  rw [PeerStorage.lastIndex, hl] at hlast
  have hidx := hf.getLast? hl
  dsimp only at hlast
  omega

theorem Backs.save (h : Backs disk s L) (hrd : rd.Allowed L) :
    Backs (disk.afterReady rd) (s.postPersist rd.hardState rd.entries) (rd.extend L) := by
  rcases hes : rd.entries with _ | ⟨e, es⟩
  · -- no entries: the log and the cache stay as they are
    have hlog : (disk.afterReady rd).log = disk.log := log_afterReady_of_nil hes
    rw [extend_of_nil hes]
    exact ⟨h.truncatedIndex, h.truncatedTerm, h.last, hlog ▸ h.stored, hlog ▸ h.indexed,
      h.consecutive, hlog ▸ h.cached, h.high⟩
  · rw [← hes]
    have hne : rd.entries ≠ [] := by rw [hes]; simp
    have hget : ∀ i, (disk.afterReady rd).log.get i = _ := get_afterReady hrd hes
    obtain ⟨hcons, hstart, htrunc⟩ := hrd.of_cons hes
    obtain ⟨f, hf⟩ := h.consecutive
    obtain ⟨hcons', hlast', hmem'⟩ := appendToCache_spec hf hcons hne
      fun hs => hstart.trans (h.lastIndex_succ hf hs).le
    obtain ⟨l, hl⟩ := Option.ne_none_iff_exists'.mp (mt List.getLast?_eq_none_iff.mp hne)
    have hlidx := hcons.getLast? hl
    have hentries : (s.postPersist rd.hardState rd.entries).entries =
        appendToCache s.entries rd.entries := if_neg hne
    rw [extend_of_cons hes]
    refine ⟨h.truncatedIndex, h.truncatedTerm, ?_, ?_, ?_, ?_, ?_, ?_⟩
    · rw [PeerStorage.lastIndex, hentries, hlast', hl]
      show l.index = e.index + rd.entries.length - 1
      omega
    · -- an entry of the new log is an old one below the Ready, or one of the Ready
      intro i hlo hhi
      change i ≤ e.index + rd.entries.length - 1 at hhi
      show ∃ x, (if i < e.index then L.entry i else rd.entries[i - e.index]?) = some x ∧ _
      by_cases hi : i < e.index
      · obtain ⟨x, hx, hdisk⟩ := h.stored i hlo (by omega)
        exact ⟨x, by rw [if_pos hi, hx], by rw [hget, if_neg (by omega), hdisk]⟩
      · have hlen : i - e.index < rd.entries.length := by omega
        refine ⟨rd.entries[i - e.index], ?_, ?_⟩
        · rw [if_neg hi, getElem?_eq_getElem hlen]
        · rw [hget, if_pos (by omega), getElem?_eq_getElem hlen]
    · intro i x hx
      rw [hget] at hx
      split at hx
      · have := hcons.index_of_getElem? hx
        omega
      · exact h.indexed i x hx
    · rw [hentries]
      exact hcons'
    · intro x hx hlo
      rw [hentries] at hx
      rcases hmem' x hx with hx | ⟨hx, hlt⟩
      · exact get_afterReady_of_mem hrd hes hx
      · rw [hget, if_neg (by omega)]
        exact h.cached x hx hlo
    · show e.index + rd.entries.length - 1 ≤ (s.postPersist rd.hardState rd.entries).persistedLastIndex
      rw [PeerStorage.postPersist, hl]
      dsimp only
      omega

end

structure LogState where
  cf : RaftCF
  storage : PeerStorage
  log : LogicalLog Entry

inductive SavePath
  | inline
  | batched (before after : List (ℕ × Ready))

def SavePath.Valid (r : ℕ) : SavePath → Prop
  | .inline => True
  | .batched before after => ∀ p ∈ before ++ after, p.1 ≠ r

instance (r : ℕ) : (path : SavePath) → Decidable (path.Valid r)
  | .inline => isTrue trivial
  | .batched before after => inferInstanceAs (Decidable (∀ p ∈ before ++ after, p.1 ≠ r))

def LogState.save (r : ℕ) (s : LogState) (rd : Ready) : SavePath → LogState
  | .inline =>
    let saved := s.storage.saveReady r s.cf rd
    ⟨saved.1, saved.2, rd.extend s.log⟩
  | .batched before after =>
    let task := buildWriteTask r rd
    let others := List.map fun p : ℕ × Ready => buildWriteTask p.1 p.2
    ⟨processBatch s.cf (others before ++ task :: others after),
      s.storage.applyWriteTaskPostPersist task, rd.extend s.log⟩

theorem applyWriteTaskPostPersist_buildWriteTask (s : PeerStorage) (r : ℕ) (rd : Ready) :
    s.applyWriteTaskPostPersist (buildWriteTask r rd) = s.postPersist rd.hardState rd.entries := by
  show s.postPersist ((if rd.hardState = {} then none else some rd.hardState).getD {}) rd.entries
    = s.postPersist rd.hardState rd.entries
  split
  · rename_i h
    rw [h]
    rfl
  · rfl

theorem filter_ops_of_ne {r : ℕ} {others : List (ℕ × Ready)} (h : ∀ p ∈ others, p.1 ≠ r) :
    ((others.map fun p => buildWriteTask p.1 p.2).flatMap WriteTask.ops).filter
      (fun op => op.regionID = r) = [] := by
  rw [filter_eq_nil_iff]
  intro op hop
  obtain ⟨task, htask, hop⟩ := mem_flatMap.mp hop
  obtain ⟨p, hp, rfl⟩ := mem_map.mp htask
  have hid : op.regionID = p.1 := regionID_of_mem_readyOps hop
  rw [decide_eq_true_iff, hid]
  exact h p hp

theorem save_storage (r : ℕ) (s : LogState) (rd : Ready) (path : SavePath) :
    (s.save r rd path).storage = s.storage.postPersist rd.hardState rd.entries := by
  cases path with
  | inline => rfl
  | batched before after => exact applyWriteTaskPostPersist_buildWriteTask s.storage r rd

theorem save_log (r : ℕ) (s : LogState) (rd : Ready) (path : SavePath) :
    (s.save r rd path).log = rd.extend s.log := by
  cases path <;> rfl

theorem save_disk {r : ℕ} {path : SavePath} (hpath : path.Valid r) (s : LogState) (rd : Ready) :
    (s.save r rd path).cf r = (s.cf r).afterReady rd := by
  cases path with
  | inline => exact saveReady_disk s.storage r s.cf rd
  | batched before after =>
    have hbefore := filter_ops_of_ne fun p hp => hpath p (mem_append_left after hp)
    have hafter := filter_ops_of_ne fun p hp => hpath p (mem_append_right before hp)
    have hself : (readyOps r rd).filter (fun op => op.regionID = r) = readyOps r rd :=
      filter_eq_self.mpr fun op hop => decide_eq_true (regionID_of_mem_readyOps hop)
    show commitBatch s.cf _ r = _
    rw [commitBatch_apply, flatMap_append, flatMap_cons, filter_append,
      filter_append, hbefore, hafter, nil_append, append_nil]
    show (filter _ (readyOps r rd)).foldl RaftDisk.put (s.cf r) = _
    rw [hself, foldl_put_readyOps]

end Raftstore
