/-
Snapshot data: `GenerateSnapshotData` and `ApplySnapshotData` of
`internal/raftstore/snapshot.go`.
-/
import Gookv.Engine

namespace Raftstore

open Txntypes StoreRestart Rocks LastWrite List Option Table

structure SnapshotCFFile where
  cf : CF
  kvPairs : List (Key × Value)
  checksum : UInt32
  deriving DecidableEq

structure SnapshotData where
  regionID : ℕ
  version : ℕ
  cfFiles : List SnapshotCFFile
  startKey : Key
  endKey : Key
  deriving DecidableEq

def snapshotVersion : ℕ := 1

def computeCFChecksum (crc32 : List UInt8 → UInt32) (pairs : List (Key × Value)) : UInt32 :=
  crc32 (pairs.flatMap fun kv => kv.1 ++ kv.2)

def bound (key : Key) : Option Key := if key = [] then none else some key

def scanCFForSnapshot (crc32 : List UInt8 → UInt32) (snap : DB) (cf : CF) (startKey endKey : Key) :
    Option SnapshotCFFile :=
  (newIterator snap cf (bound startKey) (bound endKey)).map fun kvPairs =>
    { cf, kvPairs, checksum := computeCFChecksum crc32 kvPairs }

def generateSnapshotData (crc32 : List UInt8 → UInt32) (engine : DB) (regionID : ℕ)
    (startKey endKey : Key) : Option SnapshotData :=
  (dataCFs.mapM fun cf => scanCFForSnapshot crc32 engine cf startKey endKey).map fun cfFiles =>
    { regionID, version := snapshotVersion, cfFiles, startKey, endKey }

inductive ApplyError
  | clearCF (cf : CF)
  | checksumMismatch (cf : CF) (expected got : UInt32)
  | writeKV (cf : CF)
  deriving DecidableEq

def tryOp (error : ApplyError) (batch : DB) (m : Modify) : Except ApplyError DB :=
  match batchOp batch m with
  | none => .error error
  | some batch' => .ok batch'

def clearCF (delStart delEnd : Key) (batch : DB) (cf : CF) : Except ApplyError DB :=
  if delStart ≠ [] ∨ delEnd ≠ [] then tryOp (.clearCF cf) batch (.deleteRange cf delStart delEnd)
  else .ok batch

def writeCFFile (crc32 : List UInt8 → UInt32) (batch : DB) (cfFile : SnapshotCFFile) :
    Except ApplyError DB :=
  let expected := computeCFChecksum crc32 cfFile.kvPairs
  if expected ≠ cfFile.checksum then
    .error (.checksumMismatch cfFile.cf cfFile.checksum expected)
  else
    cfFile.kvPairs.foldlM
      (fun batch kv => tryOp (.writeKV cfFile.cf) batch (.put cfFile.cf kv.1 kv.2)) batch

def clearedRange (sd : SnapshotData) (startKey endKey : Key) : Key × Key :=
  if sd.startKey ≠ [] ∨ sd.endKey ≠ [] then (sd.startKey, sd.endKey) else (startKey, endKey)

def snapshotBatch (crc32 : List UInt8 → UInt32) (engine : DB) (sd : SnapshotData)
    (startKey endKey : Key) : Except ApplyError DB := do
  let del := clearedRange sd startKey endKey
  let batch ← dataCFs.foldlM (clearCF del.1 del.2) engine
  sd.cfFiles.foldlM (writeCFFile crc32) batch

/-- `ApplySnapshotData`: the error, if any, and the engine afterwards. -/
def applySnapshotData (crc32 : List UInt8 → UInt32) (engine : DB) (sd : SnapshotData)
    (startKey endKey : Key) : Option ApplyError × DB :=
  match snapshotBatch crc32 engine sd startKey endKey with
  | .error e => (some e, engine)
  | .ok batch => (none, batch)

def InRange (startKey endKey key : Key) : Prop := startKey ≤ key ∧ (endKey = [] ∨ key < endKey)

instance (startKey endKey key : Key) : Decidable (InRange startKey endKey key) :=
  inferInstanceAs (Decidable (_ ∧ _))

def SnapshotData.has (sd : SnapshotData) (cf : CF) (key : Key) (value : Value) : Prop :=
  ∃ cfFile ∈ sd.cfFiles, cfFile.cf = cf ∧ (key, value) ∈ cfFile.kvPairs

structure ReplacesRegion (crc32 : List UInt8 → UInt32) (source engine : DB) (regionID : ℕ)
    (startKey endKey : Key) : Prop where
  succeeds : ∃ sd, generateSnapshotData crc32 source regionID startKey endKey = some sd ∧
    (applySnapshotData crc32 engine sd startKey endKey).1 = none ∧
    (∀ cf ∈ dataCFs, ∀ key, InRange startKey endKey key → ∀ value,
      get (applySnapshotData crc32 engine sd startKey endKey).2 cf key = some value ↔
        sd.has cf key value) ∧
    (∀ cf ∈ dataCFs, ∀ key, ¬ InRange startKey endKey key →
      get (applySnapshotData crc32 engine sd startKey endKey).2 cf key =
        get engine cf key) ∧
    ∀ key, get (applySnapshotData crc32 engine sd startKey endKey).2 .raft key =
      get engine .raft key
  fails : ∀ (sd : SnapshotData) (startKey endKey : Key),
    (applySnapshotData crc32 engine sd startKey endKey).1 ≠ none →
      (applySnapshotData crc32 engine sd startKey endKey).2 = engine

def Stale (source engine : DB) (startKey endKey : Key) : Prop :=
  ∃ cf ∈ dataCFs, ∃ key, InRange startKey endKey key ∧ get engine cf key ≠ none ∧
    get source cf key = none

variable {crc32 : List UInt8 → UInt32} {engine batch batch' : DB}

def clearing (delStart delEnd : Key) : List Modify :=
  if delStart ≠ [] ∨ delEnd ≠ [] then dataCFs.map fun cf => .deleteRange cf delStart delEnd else []

def SnapshotData.puts (sd : SnapshotData) : List Modify :=
  sd.cfFiles.flatMap fun cfFile => cfFile.kvPairs.map fun kv => .put cfFile.cf kv.1 kv.2

theorem tryOp_eq_ok {error : ApplyError} {m : Modify} :
    tryOp error batch m = .ok batch' ↔ batchOp batch m = some batch' := by
  unfold tryOp
  cases batchOp batch m <;> simp

theorem bind_eq_ok {α β ε : Type} {x : Except ε α} {f : α → Except ε β} {b : β} :
    x >>= f = .ok b ↔ ∃ a, x = .ok a ∧ f a = .ok b := by
  cases x with
  | error e =>
    constructor
    · intro h
      cases h
    · rintro ⟨a, h, -⟩
      cases h
  | ok a =>
    constructor
    · intro h
      exact ⟨a, rfl, h⟩
    · rintro ⟨a', h, hf⟩
      cases h
      exact hf

theorem foldlM_tryOp {α : Type} (error : α → ApplyError) (op : α → Modify) (l : List α) :
    l.foldlM (fun batch a => tryOp (error a) batch (op a)) batch = .ok batch' ↔
      batchOps batch (l.map op) = some batch' := by
  induction l generalizing batch with
  | nil => exact ⟨fun h => congrArg some (Except.ok.inj h), fun h => congrArg _ (some.inj h)⟩
  | cons a l ih =>
    rw [foldlM_cons, bind_eq_ok, map_cons, batchOps, foldlM_cons, bind_eq_bind,
      bind_eq_some_iff]
    simp only [tryOp_eq_ok, ih, batchOps]

theorem foldlM_clearCF (delStart delEnd : Key) :
    dataCFs.foldlM (clearCF delStart delEnd) batch = .ok batch' ↔
      batchOps batch (clearing delStart delEnd) = some batch' := by
  unfold clearing
  by_cases hdel : delStart ≠ [] ∨ delEnd ≠ []
  · have hclear : clearCF delStart delEnd = fun batch cf =>
        tryOp (.clearCF cf) batch (.deleteRange cf delStart delEnd) := by
      funext batch cf
      exact if_pos hdel
    rw [if_pos hdel, hclear]
    exact foldlM_tryOp .clearCF (fun cf => .deleteRange cf delStart delEnd) dataCFs
  · have hclear : clearCF delStart delEnd = fun batch _ => .ok batch := by
      funext batch cf
      exact if_neg hdel
    rw [if_neg hdel, hclear]
    exact ⟨fun h => congrArg some (Except.ok.inj h), fun h => congrArg _ (some.inj h)⟩

theorem writeCFFile_eq_ok {cfFile : SnapshotCFFile} : writeCFFile crc32 batch cfFile = .ok batch' ↔
      computeCFChecksum crc32 cfFile.kvPairs = cfFile.checksum ∧
      batchOps batch (cfFile.kvPairs.map fun kv => .put cfFile.cf kv.1 kv.2) = some batch' := by
  unfold writeCFFile
  by_cases hsum : computeCFChecksum crc32 cfFile.kvPairs = cfFile.checksum
  · rw [if_neg (not_not.mpr hsum), foldlM_tryOp, and_iff_right hsum]
  · rw [if_pos hsum]
    simp [hsum]

theorem foldlM_writeCFFile (cfFiles : List SnapshotCFFile) :
    cfFiles.foldlM (writeCFFile crc32) batch = .ok batch' ↔
      (∀ cfFile ∈ cfFiles, computeCFChecksum crc32 cfFile.kvPairs = cfFile.checksum) ∧
      batchOps batch (cfFiles.flatMap fun cfFile =>
        cfFile.kvPairs.map fun kv => .put cfFile.cf kv.1 kv.2) = some batch' := by
  induction cfFiles generalizing batch with
  | nil =>
    rw [and_iff_right (by simp)]
    exact ⟨fun h => congrArg some (Except.ok.inj h), fun h => congrArg _ (some.inj h)⟩
  | cons cfFile cfFiles ih =>
    rw [foldlM_cons, bind_eq_ok, flatMap_cons, batchOps, foldlM_append,
      bind_eq_bind, bind_eq_some_iff, forall_mem_cons]
    simp only [writeCFFile_eq_ok, ih, batchOps]
    tauto

theorem snapshotBatch_eq_ok {sd : SnapshotData} {startKey endKey : Key} :
    snapshotBatch crc32 engine sd startKey endKey = .ok batch ↔
      (∀ cfFile ∈ sd.cfFiles, computeCFChecksum crc32 cfFile.kvPairs = cfFile.checksum) ∧
      batchOps engine
        (clearing (clearedRange sd startKey endKey).1 (clearedRange sd startKey endKey).2 ++
          sd.puts) = some batch := by
  rw [snapshotBatch, bind_eq_ok, batchOps, foldlM_append, bind_eq_bind,
    bind_eq_some_iff]
  simp only [foldlM_clearCF, foldlM_writeCFFile, batchOps, SnapshotData.puts]
  tauto

/-! ### A generated snapshot -/

variable {source : DB} {regionID : ℕ} {startKey endKey : Key} {sd : SnapshotData} {cf : CF}
  {m : Modify}

theorem mem_bound {key k : Key} : k ∈ bound key ↔ key ≠ [] ∧ key = k := by
  unfold bound
  split <;> simp_all

theorem inRange_iff {key : Key} : InRange startKey endKey key ↔
    (∀ lo ∈ bound startKey, lo ≤ key) ∧ ∀ hi ∈ bound endKey, key < hi := by
  have hstart : (∀ lo ∈ bound startKey, lo ≤ key) ↔ startKey ≤ key := by
    constructor
    · intro h
      by_cases hnil : startKey = []
      · rw [hnil]
        exact not_lt.mp (not_lt_nil key)
      · exact h startKey (mem_bound.mpr ⟨hnil, rfl⟩)
    · intro h lo hlo
      obtain ⟨-, rfl⟩ := mem_bound.mp hlo
      exact h
  have hend : (∀ hi ∈ bound endKey, key < hi) ↔ endKey = [] ∨ key < endKey := by
    constructor
    · intro h
      by_cases hnil : endKey = []
      · exact .inl hnil
      · exact .inr (h endKey (mem_bound.mpr ⟨hnil, rfl⟩))
    · intro h hi hhi
      obtain ⟨hnil, rfl⟩ := mem_bound.mp hhi
      exact h.resolve_left hnil
  rw [hstart, hend, InRange]

def scanned (source : DB) (startKey endKey : Key) (cf : CF) : List (Key × Value) :=
  (newIterator source cf (bound startKey) (bound endKey)).getD []

theorem mem_scanned (hcf : cf ∈ dataCFs) (key : Key) (value : Value) :
    (key, value) ∈ scanned source startKey endKey cf ↔
      get source cf key = some value ∧ InRange startKey endKey key := by
  obtain ⟨l, hl⟩ : ∃ l, newIterator source cf (bound startKey) (bound endKey) = some l := by
    simp only [dataCFs, mem_cons, not_mem_nil, or_false] at hcf
    rcases hcf with rfl | rfl | rfl <;> exact ⟨_, rfl⟩
  rw [scanned, hl, getD_some, mem_newIterator hl, inRange_iff]

def generated (crc32 : List UInt8 → UInt32) (source : DB) (regionID : ℕ) (startKey endKey : Key) :
    SnapshotData where
  regionID := regionID
  version := snapshotVersion
  cfFiles := dataCFs.map fun cf => {
    cf
    kvPairs := scanned source startKey endKey cf
    checksum := computeCFChecksum crc32 (scanned source startKey endKey cf) }
  startKey := startKey
  endKey := endKey

theorem generateSnapshotData_eq (crc32 : List UInt8 → UInt32) (source : DB) (regionID : ℕ)
    (startKey endKey : Key) : generateSnapshotData crc32 source regionID startKey endKey =
      some (generated crc32 source regionID startKey endKey) := rfl

theorem generated_has (hcf : cf ∈ dataCFs) (key : Key) (value : Value) :
    (generated crc32 source regionID startKey endKey).has cf key value ↔
      get source cf key = some value ∧ InRange startKey endKey key := by
  rw [← mem_scanned hcf, SnapshotData.has]
  constructor
  · rintro ⟨cfFile, hfile, rfl, hmem⟩
    obtain ⟨cf', -, rfl⟩ := mem_map.mp hfile
    exact hmem
  · intro hmem
    exact ⟨_, mem_map_of_mem hcf, rfl, hmem⟩

theorem mem_puts : m ∈ sd.puts ↔ ∃ cf key value, m = .put cf key value ∧
    sd.has cf key value := by
  rw [SnapshotData.puts, mem_flatMap]
  constructor
  · rintro ⟨cfFile, hfile, hm⟩
    obtain ⟨⟨key, value⟩, hkv, rfl⟩ := mem_map.mp hm
    exact ⟨cfFile.cf, key, value, rfl, cfFile, hfile, rfl, hkv⟩
  · rintro ⟨cf, key, value, rfl, cfFile, hfile, rfl, hkv⟩
    exact ⟨cfFile, hfile, mem_map.mpr ⟨(key, value), hkv, rfl⟩⟩

theorem lastWrite_puts (hcf : cf ∈ dataCFs) (key : Key) :
    LastWrite (Modify.writeAt cf key) (generated crc32 source regionID startKey endKey).puts =
      if InRange startKey endKey key then (get source cf key).map some else none := by
  -- every write at the key is of the value in the source
  have hwrite : ∀ m ∈ (generated crc32 source regionID startKey endKey).puts, ∀ y,
      m.writeAt cf key = some y → ∃ value, y = some value ∧
        get source cf key = some value ∧ InRange startKey endKey key := by
    intro m hm y hy
    obtain ⟨cf', key', value, rfl, hhas⟩ := mem_puts.mp hm
    rw [Modify.writeAt] at hy
    split at hy
    · rename_i hat
      obtain ⟨rfl, rfl⟩ := hat
      cases hy
      exact ⟨value, rfl, (generated_has hcf key' value).mp hhas⟩
    · cases hy
  by_cases hin : InRange startKey endKey key
  · rw [if_pos hin]
    cases hget : get source cf key with
    | none =>
      rw [map_none, eq_none_iff]
      intro m hm
      rw [eq_none_iff_forall_ne_some]
      intro y hy
      obtain ⟨value, -, hvalue, -⟩ := hwrite m hm y hy
      rw [hget] at hvalue
      cases hvalue
    | some value =>
      have hhas : (generated crc32 source regionID startKey endKey).has cf key value :=
        (generated_has hcf key value).mpr ⟨hget, hin⟩
      rw [map_some, eq_some_iff_of_const (x := some value)]
      · exact ⟨rfl, .put cf key value, mem_puts.mpr ⟨cf, key, value, rfl, hhas⟩, if_pos ⟨rfl, rfl⟩⟩
      · intro m hm y hy
        obtain ⟨value', rfl, hvalue, -⟩ := hwrite m hm y hy
        rw [← hvalue, hget]
  · rw [if_neg hin, eq_none_iff]
    intro m hm
    rw [eq_none_iff_forall_ne_some]
    intro y hy
    obtain ⟨value, -, -, hin'⟩ := hwrite m hm y hy
    exact hin hin'

theorem lastWrite_clearing (hcf : cf ∈ dataCFs) (key : Key) :
    LastWrite (Modify.writeAt cf key) (clearing startKey endKey) =
      if startKey ≤ key ∧ key < endKey then some none else none := by
  unfold clearing
  split
  · rw [LastWrite.map]
    simp only [← not_lt, Modify.writeAt]
    simp only [dataCFs, List.mem_cons, List.not_mem_nil, or_false] at hcf
    rcases hcf with rfl | rfl | rfl <;> simp [LastWrite, dataCFs]
  · rename_i hempty
    push Not at hempty
    rw [hempty.2, LastWrite.nil, if_neg fun h => List.not_lt_nil key h.2]

/-! ### The range afterwards -/

theorem clearedRange_generated :
    clearedRange (generated crc32 source regionID startKey endKey) startKey endKey =
      (startKey, endKey) := by
  unfold clearedRange
  exact ite_self _

theorem cf_mem_dataCFs
    (hm : m ∈ clearing startKey endKey ++ (generated crc32 source regionID startKey endKey).puts) :
    m.cf ∈ dataCFs := by
  rcases mem_append.mp hm with hm | hm
  · unfold clearing at hm
    split at hm
    · obtain ⟨cf, hcf, rfl⟩ := mem_map.mp hm
      exact hcf
    · cases hm
  · obtain ⟨cf, key, value, rfl, cfFile, hfile, rfl, -⟩ := mem_puts.mp hm
    obtain ⟨cf', hcf', rfl⟩ := mem_map.mp hfile
    exact hcf'

theorem snapshotBatch_generated (crc32 : List UInt8 → UInt32) (source engine : DB)
    (regionID : ℕ) (startKey endKey : Key) :
    ∃ batch, snapshotBatch crc32 engine (generated crc32 source regionID startKey endKey)
        startKey endKey = .ok batch ∧
      batchOps engine (clearing startKey endKey ++
        (generated crc32 source regionID startKey endKey).puts) = some batch := by
  have hknown : (clearing startKey endKey ++
      (generated crc32 source regionID startKey endKey).puts).all
        fun m => (cfPrefix m.cf).isSome := by
    have hdata : ∀ cf ∈ dataCFs, (cfPrefix cf).isSome = true := by decide
    rw [List.all_eq_true]
    intro m hm
    exact hdata m.cf (cf_mem_dataCFs hm)
  rw [← batchOps_isSome engine, Option.isSome_iff_exists] at hknown
  obtain ⟨batch, hbatch⟩ := hknown
  refine ⟨batch, snapshotBatch_eq_ok.mpr ⟨?_, ?_⟩, hbatch⟩
  · intro cfFile hfile
    obtain ⟨cf, -, rfl⟩ := List.mem_map.mp hfile
    rfl
  · rw [clearedRange_generated]
    exact hbatch

theorem get_applySnapshotData (crc32 : List UInt8 → UInt32) (source engine : DB)
    (regionID : ℕ) (startKey endKey : Key) :
    ∃ batch, applySnapshotData crc32 engine (generated crc32 source regionID startKey endKey)
        startKey endKey = (none, batch) ∧
      (∀ cf ∈ dataCFs, ∀ key, get batch cf key =
        if InRange startKey endKey key then
          (get source cf key).or (if key < endKey then none else get engine cf key)
        else get engine cf key) ∧
      ∀ key, get batch .raft key = get engine .raft key := by
  obtain ⟨batch, hok, hops⟩ :=
    snapshotBatch_generated crc32 source engine regionID startKey endKey
  refine ⟨batch, ?_, ?_, ?_⟩
  · rw [applySnapshotData, hok]
  · -- the records are put after the clearing, so they decide where there is one
    intro cf hcf key
    rw [get_batchOps hops, append, lastWrite_puts hcf, lastWrite_clearing hcf]
    by_cases hin : InRange startKey endKey key
    · rw [if_pos hin, if_pos hin]
      cases get source cf key with
      | none =>
        simp only [hin.1, true_and, map_none, none_or]
        split <;> rfl
      | some value => rfl
    · have hcleared : ¬ (startKey ≤ key ∧ key < endKey) := fun h => hin ⟨h.1, .inr h.2⟩
      rw [if_neg hin, if_neg hin, if_neg hcleared]
      rfl
  · intro key
    have hnone : LastWrite (Modify.writeAt .raft key) (clearing startKey endKey ++
        (generated crc32 source regionID startKey endKey).puts) = none := by
      rw [eq_none_iff]
      intro m hm
      have hne : m.cf ≠ .raft := by
        intro heq
        have hmem := cf_mem_dataCFs hm
        rw [heq] at hmem
        revert hmem
        decide
      exact writeAt_of_ne hne key
    rw [get_batchOps hops, hnone]
    rfl

theorem applySnapshotData_of_error
    (h : (applySnapshotData crc32 engine sd startKey endKey).1 ≠ none) :
    (applySnapshotData crc32 engine sd startKey endKey).2 = engine := by
  unfold applySnapshotData at h ⊢
  split
  · rfl
  · rename_i hok
    rw [hok] at h
    exact absurd rfl h

/-- **Applying a snapshot replaces exactly the region, unless the region has no end and a
record in it is not in the snapshot.** -/
theorem replacesRegion_iff (crc32 : List UInt8 → UInt32) (source engine : DB) (regionID : ℕ)
    (startKey endKey : Key) : ReplacesRegion crc32 source engine regionID startKey endKey ↔
      (endKey = [] → ¬ Stale source engine startKey endKey) := by
  obtain ⟨batch, happly, hdata, hraft⟩ :=
    get_applySnapshotData crc32 source engine regionID startKey endKey
  constructor
  · rintro ⟨⟨sd, hsd, -, hinside, -⟩, -⟩ hend ⟨cf, hcf, key, hin, hold, hnew⟩
    obtain rfl : generated crc32 source regionID startKey endKey = sd := by
      rw [generateSnapshotData_eq] at hsd
      exact some.inj hsd
    -- the record is neither replaced nor cleared
    obtain ⟨value, hvalue⟩ := ne_none_iff_exists'.mp hold
    have hkept : get batch cf key = some value := by
      rw [hdata cf hcf key, if_pos hin, hnew, none_or, hend, if_neg (not_lt_nil key),
        hvalue]
    rw [happly] at hinside
    have hhas := (hinside cf hcf key hin value).mp hkept
    rw [generated_has hcf, hnew] at hhas
    cases hhas.1
  · intro hstale
    refine ⟨⟨_, generateSnapshotData_eq crc32 source regionID startKey endKey, ?_⟩, ?_⟩
    · rw [happly]
      refine ⟨rfl, ?_, ?_, hraft⟩
      · intro cf hcf key hin value
        rw [generated_has hcf, and_iff_left hin, hdata cf hcf key, if_pos hin]
        -- without a value in the source the key is cleared, or it was empty
        cases hnew : get source cf key with
        | some value' => rfl
        | none =>
          rw [none_or]
          split
          · rfl
          · rename_i hnlt
            have hend : endKey = [] := hin.2.resolve_right hnlt
            by_contra hne
            refine hstale hend ⟨cf, hcf, key, hin, ?_, hnew⟩
            intro hold
            rw [hold] at hne
            exact hne Iff.rfl
      · intro cf hcf key hout
        rw [hdata cf hcf key, if_neg hout]
    · exact fun sd start' end' hfail => applySnapshotData_of_error hfail

/-- **A stale record survives** in the region without an end: the snapshot of an empty
engine for the range from `a` on leaves the key `b` as it is. -/
theorem stale_key_survives :
    let engine : DB := put empty (prefixKey 0 [0x62]) [1]
    generateSnapshotData (fun _ => 0) empty 2 [0x61] [] =
        some (generated (fun _ => 0) empty 2 [0x61] []) ∧
      get (applySnapshotData (fun _ => 0) engine
        (generated (fun _ => 0) empty 2 [0x61] []) [0x61] []).2 .default [0x62] = some [1] ∧
      ¬ ReplacesRegion (fun _ => 0) empty engine 2 [0x61] [] := by
  intro engine
  have hkept : get (applySnapshotData (fun _ => 0) engine
      (generated (fun _ => 0) empty 2 [0x61] []) [0x61] []).2 .default [0x62] = some [1] := by
    rfl
  refine ⟨rfl, hkept, ?_⟩
  rintro ⟨⟨sd, hsd, -, hinside, -⟩, -⟩
  obtain rfl : generated (fun _ => 0) empty 2 [0x61] [] = sd := some.inj hsd
  have hhas := (hinside .default (by decide) [0x62] (by decide) [1]).mp hkept
  rw [generated_has (by decide), get_empty] at hhas
  cases hhas.1

end Raftstore
