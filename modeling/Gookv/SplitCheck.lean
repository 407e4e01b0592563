/-
Where a region is split: `checkRegion` and `scanRegionSize` of
`internal/raftstore/split/checker.go`.
-/
import Gookv.RunningTotal
import Gookv.SnapshotData
import Gookv.Modifies
import Gookv.TxnRecords
import Gookv.Region

namespace SplitCheck

open Txntypes StoreRestart Rocks Metapb Codec Mvcc Raftstore RunningTotal List

structure SplitCheckWorkerConfig where
  splitSize : ℕ
  maxSize : ℕ
  deriving DecidableEq

structure SplitCheckResult where
  regionID : ℕ
  splitKey : Option Key
  regionSize : ℕ
  deriving DecidableEq

def entrySize (entry : Key × Value) : ℕ := entry.1.length + entry.2.length

structure Scan where
  totalSize : ℕ := 0
  splitKey : Option Key := none
  full : Bool := false
  deriving DecidableEq

def candidate (key : Key) : Key :=
  match decodeKey key with
  | .ok (rawKey, _) => encodeLockKey rawKey
  | .error _ => key

def visit (cfg : SplitCheckWorkerConfig) (s : Scan) (entry : Key × Value) : Scan :=
  let totalSize := s.totalSize + entrySize entry
  { totalSize
    splitKey :=
      if s.splitKey = none ∧ cfg.splitSize / 2 ≤ totalSize then some (candidate entry.1)
      else s.splitKey
    full := cfg.maxSize ≤ totalSize }

def scanCF (cfg : SplitCheckWorkerConfig) (s : Scan) : List (Key × Value) → Scan
  | [] => s
  | entry :: entries =>
    if (visit cfg s entry).full then visit cfg s entry else scanCF cfg (visit cfg s entry) entries

def scanCFs (engine : DB) (cfg : SplitCheckWorkerConfig) (startKey endKey : Key) (s : Scan) :
    List CF → Option Scan
  | [] => some s
  | cf :: cfs =>
    match newIterator engine cf (bound startKey) (bound endKey) with
    | none => none
    | some entries =>
      if (scanCF cfg s entries).full then some (scanCF cfg s entries)
      else scanCFs engine cfg startKey endKey (scanCF cfg s entries) cfs

def scanRegionSize (engine : DB) (cfg : SplitCheckWorkerConfig) (startKey endKey : Key) :
    Option (ℕ × Option Key) :=
  (scanCFs engine cfg startKey endKey {} [.default, .write, .lock]).map fun s =>
    (s.totalSize, s.splitKey)

def checkRegion (engine : DB) (cfg : SplitCheckWorkerConfig) (region : Region) :
    Option SplitCheckResult :=
  (scanRegionSize engine cfg region.startKey region.endKey).map fun r =>
    { regionID := region.id
      splitKey := if cfg.splitSize ≤ r.1 then r.2 else none
      regionSize := r.1 }

def written (M : Marshal) (batches : List (List Mvcc.Modify)) : DB :=
  batches.foldl (fun engine ms => Rocks.applyModifies engine (ms.map (Modify.encoded M))) Table.empty

/-! ### The scan -/

variable {cf : CF} {user : Key} {rec : Record}

section

variable {engine : DB} {cfg : SplitCheckWorkerConfig} {startKey endKey : Key} {s : Scan}
  {entries : List (Key × Value)} {key : Key}

def records (engine : DB) (startKey endKey : Key) (cf : CF) : List (Key × Value) :=
  (newIterator engine cf (bound startKey) (bound endKey)).getD []

theorem newIterator_eq_records (h : (cfPrefix cf).isSome) :
    newIterator engine cf (bound startKey) (bound endKey) =
      some (records engine startKey endKey cf) := by
  obtain ⟨b, hb⟩ := Option.isSome_iff_exists.mp h
  rw [records, newIterator, hb]
  rfl

theorem scanCF_append (hs : s.full = false) (entries' : List (Key × Value)) :
    scanCF cfg s (entries ++ entries') =
      if (scanCF cfg s entries).full then scanCF cfg s entries
      else scanCF cfg (scanCF cfg s entries) entries' := by
  induction entries generalizing s with
  | nil => simp [scanCF, hs]
  | cons entry entries ih =>
    rw [cons_append, scanCF, scanCF]
    by_cases hfull : (visit cfg s entry).full = true
    · rw [if_pos hfull, if_pos hfull, if_pos hfull]
    · rw [if_neg hfull, if_neg hfull]
      exact ih (Bool.eq_false_of_not_eq_true hfull)

theorem scanCFs_eq {cfs : List CF} (hcfs : ∀ cf ∈ cfs, (cfPrefix cf).isSome) (hs : s.full = false) :
    scanCFs engine cfg startKey endKey s cfs =
      some (scanCF cfg s (cfs.flatMap (records engine startKey endKey))) := by
  induction cfs generalizing s with
  | nil => rfl
  | cons cf cfs ih =>
    rw [scanCFs, newIterator_eq_records (hcfs cf mem_cons_self), flatMap_cons,
      scanCF_append hs]
    dsimp only
    split_ifs with hfull
    · rfl
    · exact ih (fun c hc => hcfs c (mem_cons_of_mem cf hc))
        (Bool.eq_false_of_not_eq_true hfull)

theorem scanRegionSize_eq : scanRegionSize engine cfg startKey endKey =
      let s := scanCF cfg {} ([.default, .write, .lock].flatMap (records engine startKey endKey))
      some (s.totalSize, s.splitKey) := by
  rw [scanRegionSize, scanCFs_eq (by decide) rfl]
  rfl

theorem scanCF_of_some (h : s.splitKey = some key) :
    (scanCF cfg s entries).splitKey = some key := by
  induction entries generalizing s with
  | nil => exact h
  | cons entry entries ih =>
    have hvisit : (visit cfg s entry).splitKey = some key := by
      simp [visit, h]
    rw [scanCF]
    split_ifs
    · exact hvisit
    · exact ih hvisit

theorem scanCF_splitKey (hs : s.splitKey = none) (h : (scanCF cfg s entries).splitKey = some key) :
    ∃ entry, reach entrySize (cfg.splitSize / 2 - s.totalSize) entries = some entry ∧
      candidate entry.1 = key := by
  induction entries generalizing s with
  | nil =>
    rw [scanCF, hs] at h
    cases h
  | cons entry entries ih =>
    rw [reach]
    by_cases hhalf : cfg.splitSize / 2 ≤ s.totalSize + entrySize entry
    · -- the total is reached here, and the scan keeps the key from here on
      have hvisit : (visit cfg s entry).splitKey = some (candidate entry.1) := if_pos ⟨hs, hhalf⟩
      have hscan : (scanCF cfg s (entry :: entries)).splitKey = some (candidate entry.1) := by
        rw [scanCF]
        split_ifs
        · exact hvisit
        · exact scanCF_of_some hvisit
      rw [if_pos (by omega)]
      exact ⟨entry, rfl, Option.some.inj (hscan.symm.trans h)⟩
    · have hvisit : (visit cfg s entry).splitKey = none :=
        (if_neg fun hc => hhalf hc.2).trans hs
      rw [scanCF] at h
      split_ifs at h with hfull
      · rw [hvisit] at h
        cases h
      · rw [if_neg (by omega), Nat.sub_sub]
        exact ih hvisit h

end

theorem record_of_writeAt {M : Marshal} {m : Mvcc.Modify} {key : Key}
    (h : (m.encoded M).writeAt cf key ≠ none) : m.record.cf = cf ∧ m.record.encodedKey = key := by
  by_contra hne
  cases m <;> exact h (if_neg hne)

def HoldsRecords (engine : DB) : Prop :=
  ∀ cf key, Rocks.get engine cf key ≠ none → ∃ rec : Record, rec.cf = cf ∧ rec.encodedKey = key

theorem HoldsRecords.applyModifies {engine : DB} (h : HoldsRecords engine) (M : Marshal)
    (ms : List Mvcc.Modify) :
    HoldsRecords (Rocks.applyModifies engine (ms.map (Modify.encoded M))) := by
  intro cf key hget
  rw [view_applyModifies, StoreRestart.applyModifies] at hget
  split_ifs at hget
  · rw [foldl_apply] at hget
    cases hlast : LastWrite (Modify.writeAt cf key) (ms.map (Modify.encoded M)) with
    | none =>
      rw [hlast] at hget
      exact h cf key hget
    | some v =>
      obtain ⟨m', hm', hwrite⟩ := LastWrite.exists_of_eq_some hlast
      obtain ⟨m, -, rfl⟩ := mem_map.mp hm'
      exact ⟨m.record, record_of_writeAt (Option.ne_none_iff_exists'.mpr ⟨v, hwrite⟩)⟩
  · exact h cf key hget

theorem holdsRecords_written (M : Marshal) (batches : List (List Mvcc.Modify)) :
    HoldsRecords (written M batches) := by
  have hrun : ∀ engine, HoldsRecords engine → HoldsRecords (batches.foldl
      (fun engine ms => Rocks.applyModifies engine (ms.map (Modify.encoded M))) engine) := by
    induction batches with
    | nil => exact fun _ h => h
    | cons ms batches ih => exact fun engine h => ih _ (h.applyModifies M ms)
  refine hrun Table.empty fun cf key hget => ?_
  exact absurd (Rocks.get_empty cf key) hget

theorem encodedKey_eq (rec : Record) : ∃ suffix, rec.encodedKey = encodeBytes rec.userKey ++ suffix := by
  cases rec with
  | lock key => exact ⟨[], (append_nil _).symm⟩
  | value key startTS | write key commitTS => exact ⟨_, rfl⟩

theorem candidate_of_decodeKey {key rawKey : Key} {ts : TimeStamp}
    (h : decodeKey key = .ok (rawKey, ts)) : candidate key = encodeLockKey rawKey := by
  rw [candidate, h]

theorem candidate_encodedKey (rec : Record) : candidate rec.encodedKey = encodeBytes rec.userKey := by
  cases rec with
  | lock key => exact candidate_of_decodeKey (decodeKey_encodeLockKey key)
  | value key startTS => exact candidate_of_decodeKey (decodeKey_encodeKey key startTS)
  | write key commitTS => exact candidate_of_decodeKey (decodeKey_encodeKey key commitTS)

theorem encodedKey_lt_iff :
    rec.encodedKey < encodeBytes user ↔ rec.userKey < user := by
  obtain ⟨suffix, hkey⟩ := encodedKey_eq rec
  have h := encodeBytes_append_lt (a := rec.userKey) (s := suffix) (b := user) (t := [])
  rw [append_nil] at h
  rw [hkey, h]
  simp

theorem isPrefix_encodedKey_iff :
    encodeBytes user <+: rec.encodedKey ↔ rec.userKey = user := by
  obtain ⟨suffix, hkey⟩ := encodedKey_eq rec
  rw [hkey]
  constructor
  · rintro ⟨t, ht⟩
    exact (encodeBytes_append_inj.mp ht).1.symm
  · rintro rfl
    exact ⟨suffix, rfl⟩

theorem encodeBytes_le_encodedKey (rec : Record) : encodeBytes rec.userKey ≤ rec.encodedKey :=
  not_lt.mp fun h => lt_irrefl _ (encodedKey_lt_iff.mp h)

/-! ### When the split key can be used -/

def Held (engine : DB) (rec : Record) : Prop := Rocks.get engine rec.cf rec.encodedKey ≠ none

/-- `ExecBatchSplit` accepts the key, inside the range, with each user key on one side. -/
structure Usable (engine : DB) (region : Region) (key : Key) : Prop where
  accepted : ∀ newRegionID newPeerIDSets, ∃ result,
    execBatchSplit region [key] [newRegionID] newPeerIDSets = .ok result
  inside : region.startKey < key ∧ (region.endKey = [] ∨ key < region.endKey)
  whole : ∀ rec rec' : Record, Held engine rec → Held engine rec' → rec.userKey = rec'.userKey →
    rec.encodedKey < key → rec'.encodedKey < key

/-- Half of `SplitSize` is reached within the records of the first user key. -/
def StartCrosses (engine : DB) (cfg : SplitCheckWorkerConfig) (region : Region) : Prop :=
  let half := max 1 (cfg.splitSize / 2)
  let size cf := total entrySize (records engine region.startKey region.endKey cf)
  let own cf := total entrySize
    ((records engine region.startKey region.endKey cf).filter fun e => region.startKey <+: e.1)
  region.startKey ≠ [] ∧
    (half ≤ own .default ∨
      (size .default < half ∧ half ≤ size .default + own .write) ∨
      (size .default + size .write < half ∧ half ≤ size .default + size .write + own .lock))

section

variable {engine : DB} {cfg : SplitCheckWorkerConfig} {region : Region}

variable {b : Key} {entry : Key × Value}

theorem mem_records {startKey endKey : Key} (hcf : (cfPrefix cf).isSome)
    (h : entry ∈ records engine startKey endKey cf) :
    Rocks.get engine cf entry.1 = some entry.2 ∧ InRange startKey endKey entry.1 := by
  have hmem := (mem_newIterator (newIterator_eq_records hcf) entry.1 entry.2).mp h
  exact ⟨hmem.1, inRange_iff.mpr hmem.2⟩

theorem records_start_first (hrecords : HoldsRecords engine)
    (hstart : region.startKey = encodeBytes b) (cf : CF) (hcf : (cfPrefix cf).isSome) :
    (records engine region.startKey region.endKey cf).Pairwise fun e e' =>
      region.startKey <+: e'.1 → region.startKey <+: e.1 := by
  refine (sorted_newIterator (newIterator_eq_records hcf)).imp_of_mem ?_
  intro e e' he he' hlt hprefix
  obtain ⟨hget, hle, -⟩ := mem_records hcf he
  obtain ⟨hget', -⟩ := mem_records hcf he'
  obtain ⟨rec, -, hrec⟩ := hrecords cf e.1 (by simp [hget])
  obtain ⟨rec', -, hrec'⟩ := hrecords cf e'.1 (by simp [hget'])
  rw [hstart, ← hrec', isPrefix_encodedKey_iff] at hprefix
  rw [hstart, ← hrec, ← not_lt, encodedKey_lt_iff, not_lt] at hle
  rw [hstart, ← hrec, isPrefix_encodedKey_iff]
  refine le_antisymm (not_lt.mp fun hgt => ?_) hle
  -- a record of a later user key is behind all of the first one
  rw [← hprefix, ← encodedKey_lt_iff, hrec'] at hgt
  exact (hgt.trans_le (hrec ▸ encodeBytes_le_encodedKey rec)).not_gt hlt

theorem start_isPrefix_iff (hrecords : HoldsRecords engine)
    (hstart : region.startKey = encodeBytes b)
    (h : reach entrySize (max 1 (cfg.splitSize / 2)) ([.default, .write, .lock].flatMap
      (records engine region.startKey region.endKey)) = some entry) :
    region.startKey <+: entry.1 ↔ StartCrosses engine cfg region := by
  have hne : region.startKey ≠ [] := hstart ▸ encodeBytes_ne_nil b
  have hfirst := records_start_first hrecords hstart
  have hhalf : 0 < max 1 (cfg.splitSize / 2) := by omega
  have hown : ∀ cf, total entrySize ((records engine region.startKey region.endKey cf).filter
      fun e => region.startKey <+: e.1) ≤
      total entrySize (records engine region.startKey region.endKey cf) :=
    fun cf => total_filter_le _
  have hownDefault := hown .default
  have hownWrite := hown .write
  simp only [flatMap_cons, flatMap_nil, append_nil] at h
  simp only [StartCrosses, ne_eq, hne, not_false_eq_true, true_and]
  rw [reach_append hhalf] at h
  split_ifs at h with hdefault
  · rw [reach_holds_iff hhalf (hfirst .default rfl) h]
    omega
  · rw [reach_append (by omega)] at h
    split_ifs at h with hwrite
    · rw [reach_holds_iff (by omega) (hfirst .write rfl) h]
      omega
    · rw [reach_holds_iff (by omega) (hfirst .lock rfl) h]
      omega

theorem exists_record_of_checkRegion (hrecords : HoldsRecords engine) {result : SplitCheckResult}
    {key : Key} (h : checkRegion engine cfg region = some result)
    (hkey : result.splitKey = some key) :
    ∃ (rec : Record) (value : Value), key = encodeBytes rec.userKey ∧
      InRange region.startKey region.endKey rec.encodedKey ∧
      reach entrySize (max 1 (cfg.splitSize / 2)) ([.default, .write, .lock].flatMap
        (records engine region.startKey region.endKey)) = some (rec.encodedKey, value) := by
  rw [checkRegion, scanRegionSize_eq] at h
  obtain rfl := Option.some.inj h
  dsimp only at hkey
  split_ifs at hkey
  obtain ⟨entry, hreach, hcandidate⟩ := scanCF_splitKey rfl hkey
  have hfamilies : ∀ cf ∈ [CF.default, .write, .lock], (cfPrefix cf).isSome := by decide
  -- every entry is the record of a user key
  have hentry : ∀ e ∈ [CF.default, .write, .lock].flatMap
      (records engine region.startKey region.endKey),
      InRange region.startKey region.endKey e.1 ∧ ∃ rec : Record, rec.encodedKey = e.1 := by
    intro e he
    obtain ⟨cf, hcf, hmem⟩ := mem_flatMap.mp he
    obtain ⟨hget, hrange⟩ := mem_records (hfamilies cf hcf) hmem
    obtain ⟨rec, -, hrec⟩ := hrecords cf e.1 (by simp [hget])
    exact ⟨hrange, rec, hrec⟩
  obtain ⟨hrange, rec, hrec⟩ := hentry entry (mem_of_reach hreach)
  have hpos : ∀ e ∈ [CF.default, .write, .lock].flatMap
      (records engine region.startKey region.endKey), 0 < entrySize e := by
    intro e he
    obtain ⟨-, rec', hrec'⟩ := hentry e he
    obtain ⟨suffix, hsuffix⟩ := encodedKey_eq rec'
    have hlen := length_pos_of_ne_nil (encodeBytes_ne_nil rec'.userKey)
    rw [entrySize, ← hrec', hsuffix, length_append]
    omega
  refine ⟨rec, entry.2, ?_, hrec ▸ hrange, ?_⟩
  · rw [← hcandidate, ← hrec, candidate_encodedKey]
  · rw [reach_max_one hpos, hrec]
    exact hreach

theorem usable_of_inside (hlt : region.startKey < encodeBytes user)
    (hend : region.endKey = [] ∨ encodeBytes user < region.endKey) :
    Usable engine region (encodeBytes user) := by
  refine ⟨?_, ⟨hlt, hend⟩, ?_⟩
  · intro newRegionID newPeerIDSets
    have haccepted : execSplitAdmin region ⟨encodeBytes user, [newRegionID], newPeerIDSets⟩ =
        .ok _ :=
      execSplitAdmin_ok_iff.mpr ⟨⟨rfl, fun h => h.2 hlt, fun h => hend.elim h.1 h.2⟩, rfl⟩
    exact ⟨_, haccepted⟩
  · intro rec rec' _ _ huser hrec
    rw [encodedKey_lt_iff] at hrec ⊢
    rwa [← huser]

/-- **When the split key can be used**: exactly when half of `SplitSize` is not reached within the
records of the user key at which the region starts. -/
theorem splitKey_usable_iff {M : Marshal} {batches : List (List Mvcc.Modify)}
    {result : SplitCheckResult} {key : Key}
    (hstart : region.startKey = [] ∨ ∃ b, region.startKey = encodeBytes b)
    (h : checkRegion (written M batches) cfg region = some result)
    (hkey : result.splitKey = some key) :
    Usable (written M batches) region key ↔ ¬ StartCrosses (written M batches) cfg region := by
  have hrecords := holdsRecords_written M batches
  obtain ⟨rec, value, rfl, hrange, hreach⟩ := exists_record_of_checkRegion hrecords h hkey
  have hend : region.endKey = [] ∨ encodeBytes rec.userKey < region.endKey :=
    hrange.2.imp_right (encodeBytes_le_encodedKey rec).trans_lt
  have hstarts : region.startKey < encodeBytes rec.userKey ↔
      ¬ StartCrosses (written M batches) cfg region := by
    rcases hstart with hnil | ⟨b, hb⟩
    · have hlt : region.startKey < encodeBytes rec.userKey := by
        rw [hnil]
        exact lt_of_le_of_ne (not_lt.mp (not_lt_nil _)) (encodeBytes_ne_nil _).symm
      exact iff_of_true hlt fun hcross => hcross.1 hnil
    · have hle := hrange.1
      rw [hb, ← not_lt, encodedKey_lt_iff, not_lt] at hle
      rw [← start_isPrefix_iff hrecords hb hreach, hb, encodeBytes_lt, isPrefix_encodedKey_iff,
        lt_iff_le_and_ne]
      exact ⟨fun hlt heq => hlt.2 heq.symm, fun hne => ⟨hle, fun heq => hne heq.symm⟩⟩
  rw [← hstarts]
  exact ⟨fun husable => husable.inside.1, fun hlt => usable_of_inside hlt hend⟩

def recordMarshal : Marshal where
  lock l := l.record.marshal
  write w := w.record.marshal

def committed (users : List Key) : DB :=
  written recordMarshal [users.map fun user =>
    .putWrite user 10 { writeType := .put, startTS := 5, shortValue := some [7] }]

def startsAt (user : Key) : Region where
  id := 7
  startKey := encodeBytes user
  regionEpoch := some { confVer := 1, version := 2 }
  peers := [⟨71, 1, .voter⟩]

theorem splitKey_usable_iff_second :
    (checkRegion (committed [[1], [2], [3]]) ⟨60, 100⟩ (startsAt [1])).bind
        SplitCheckResult.splitKey = some (encodeBytes [2]) ∧
      Usable (committed [[1], [2], [3]]) (startsAt [1]) (encodeBytes [2]) := by
  have h : checkRegion (committed [[1], [2], [3]]) ⟨60, 100⟩ (startsAt [1]) =
      some ⟨7, some (encodeBytes [2]), 66⟩ := by decide
  refine ⟨by rw [h]; rfl, (splitKey_usable_iff (.inr ⟨[1], rfl⟩) h rfl).mpr ?_⟩
  rintro ⟨-, hcross⟩
  revert hcross
  decide

theorem splitKey_refused : checkRegion (committed [[1], [2]]) ⟨40, 100⟩ (startsAt [1]) =
        some ⟨7, some (encodeBytes [1]), 44⟩ ∧
      (∀ user ∈ [[1], [2]], Held (committed [[1], [2]]) (.write user 10)) ∧
      execBatchSplit (startsAt [1]) [encodeBytes [1]] [8] [[81]] =
        .error (.notAboveStart (encodeBytes [1]) (encodeBytes [1])) ∧
      Usable (committed [[1], [2]]) (startsAt [1]) (encodeBytes [2]) := by
  refine ⟨by decide, ?_, by decide, usable_of_inside (by decide) (.inl rfl)⟩
  unfold Held
  decide

end

end SplitCheck
