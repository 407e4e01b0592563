/-
Locks and write records as bytes: `Marshal`, `UnmarshalLock` and `UnmarshalWrite` of
`pkg/txntypes`, with the helpers of `util.go`.
-/
import Gookv.KeyOrder
import Gookv.TaggedFields
import Gookv.Varint

namespace Txntypes

open Codec Proposals Raftstore FieldReader List

inductive RecordError
  | unexpectedEOF
  | unknownLockTag
  | unknownWriteTag
  deriving DecidableEq

/-! ### Payloads -/

def appendUint64BE (v : UInt64) : List UInt8 := putUint64 v

def appendVarint (v : UInt64) : List UInt8 := Varint.encode 9 v.toNat

def appendVarBytes (data : List UInt8) : List UInt8 :=
  appendVarint (UInt64.ofNat data.length) ++ data

def readUint64BE : Reader UInt8 UInt64 RecordError := fun data =>
  if data.length < 8 then .error .unexpectedEOF
  else .ok (UInt64.ofNat (bigEndian data), data.drop 8)

def readVarint : Reader UInt8 UInt64 RecordError := fun data =>
  match Varint.decode 1 9 data with
  | none => .error .unexpectedEOF
  | some (v, rest) => .ok (UInt64.ofNat v, rest)

def readBytes (n : ℕ) : Reader UInt8 (List UInt8) RecordError := fun data =>
  if data.length < n then .error .unexpectedEOF else .ok (data.take n, data.drop n)

def readVarBytes : Reader UInt8 (List UInt8) RecordError :=
  readVarint.bind fun length => readBytes length.toNat

def readByte : Reader UInt8 UInt8 RecordError
  | [] => .error .unexpectedEOF
  | b :: data => .ok (b, data)

def readShortValue : Reader UInt8 (List UInt8) RecordError :=
  readByte.bind fun vLen => readBytes vLen.toNat

def readRepeated {α : Type} (read : Reader UInt8 α RecordError) :
    Reader UInt8 (List α) RecordError :=
  readVarint.bind fun count => read.times count.toNat

section

variable {α : Type} {read : Reader UInt8 α RecordError}

theorem reads_uint64BE (v : UInt64) : readUint64BE.Reads (appendUint64BE v) v := by
  intro rest
  have hlen : ¬ (appendUint64BE v ++ rest).length < 8 := by
    rw [length_append, appendUint64BE, length_putUint64]
    omega
  rw [readUint64BE, if_neg hlen, appendUint64BE, bigEndian_putUint64, UInt64.ofNat_toNat,
    ← length_putUint64 v, drop_left]

theorem reads_varint (v : UInt64) : readVarint.Reads (appendVarint v) v := by
  intro rest
  have hbound : v.toNat < (1 + 1) * 128 ^ 9 := v.toNat_lt
  rw [readVarint, appendVarint, Varint.decode_encode (by omega) hbound]
  dsimp only
  rw [UInt64.ofNat_toNat]

theorem reads_bytes (data : List UInt8) : (readBytes data.length).Reads data data := by
  intro rest
  have hlen : ¬ (data ++ rest).length < data.length := by
    rw [length_append]
    omega
  rw [readBytes, if_neg hlen, take_left, drop_left]

theorem reads_varBytes {data : List UInt8} (h : data.length < 2 ^ 63) :
    readVarBytes.Reads (appendVarBytes data) data := by
  refine (reads_varint (UInt64.ofNat data.length)).bind ?_
  rw [UInt64.toNat_ofNat_of_lt' (by show data.length < 2 ^ 64; omega)]
  exact reads_bytes data

theorem reads_shortValue {data : List UInt8} (h : data.length ≤ shortValueMaxLen) :
    readShortValue.Reads (UInt8.ofNat data.length :: data) data := by
  have hbyte : readByte.Reads [UInt8.ofNat data.length] (UInt8.ofNat data.length) :=
    fun rest => rfl
  refine hbyte.bind ?_
  rw [UInt8.toNat_ofNat_of_lt' (by
    show data.length < 256
    exact Nat.lt_succ_of_le h)]
  exact reads_bytes data

theorem reads_repeated {as : List α} {enc : α → List UInt8} (hlen : as.length < 2 ^ 63)
    (h : ∀ a ∈ as, read.Reads (enc a) a) :
    (readRepeated read).Reads (appendVarint (UInt64.ofNat as.length) ++ as.flatMap enc) as := by
  refine (reads_varint (UInt64.ofNat as.length)).bind ?_
  rw [UInt64.toNat_ofNat_of_lt' (by show as.length < 2 ^ 64; omega)]
  exact Reader.reads_times h

theorem shrinks_uint64BE : readUint64BE.Shrinks := by
  intro data v rest h
  rw [readUint64BE] at h
  split at h
  · cases h
  · cases h
    rw [length_drop]
    omega

theorem shrinks_varint : readVarint.Shrinks := by
  intro data v rest h
  rw [readVarint] at h
  split at h
  · cases h
  · rename_i hdec
    cases h
    exact (Varint.decode_length hdec).le

theorem shrinks_bytes (n : ℕ) : (readBytes n).Shrinks := by
  intro data bs rest h
  rw [readBytes] at h
  split at h
  · cases h
  · cases h
    rw [length_drop]
    omega

theorem shrinks_varBytes : readVarBytes.Shrinks :=
  shrinks_varint.bind fun _ => shrinks_bytes _

theorem shrinks_shortValue : readShortValue.Shrinks := by
  refine Reader.Shrinks.bind ?_ fun _ => shrinks_bytes _
  intro data b rest h
  cases data with
  | nil => cases h
  | cons b' data =>
    cases h
    exact Nat.le_succ _

theorem shrinks_pure (a : α) : Reader.Shrinks fun data : List UInt8 =>
    (.ok (a, data) : Except RecordError (α × List UInt8)) := by
  intro data b rest h
  cases h
  exact le_rfl

theorem shrinks_throw (e : RecordError) : Reader.Shrinks fun _ : List UInt8 =>
    (.error e : Except RecordError (α × List UInt8)) := by
  intro data b rest h
  cases h

theorem shrinks_repeated (h : read.Shrinks) : (readRepeated read).Shrinks :=
  shrinks_varint.bind fun _ => h.times _

end

structure LastChangeRecord where
  ts : TimeStamp := 0
  estimatedVersions : UInt64 := 0
  deriving DecidableEq

/-- `Lock`, with all its fields. -/
structure LockRecord where
  lockType : UInt8
  primary : List UInt8
  startTS : TimeStamp
  ttl : UInt64
  shortValue : Option (List UInt8) := none
  forUpdateTS : TimeStamp := 0
  txnSize : UInt64 := 0
  minCommitTS : TimeStamp := 0
  useAsyncCommit : Bool := false
  secondaries : List (List UInt8) := []
  rollbackTS : List TimeStamp := []
  lastChange : LastChangeRecord := {}
  txnSource : UInt64 := 0
  pessimisticLockWithConflict : Bool := false
  generation : UInt64 := 0
  deriving DecidableEq

structure WriteRecord where
  writeType : UInt8
  startTS : TimeStamp
  shortValue : Option (List UInt8) := none
  hasOverlappedRollback : Bool := false
  gcFence : Option TimeStamp := none
  lastChange : LastChangeRecord := {}
  txnSource : UInt64 := 0
  deriving DecidableEq

def LockType.code : LockType → UInt8
  | .put => 0x50
  | .delete => 0x44
  | .lock => 0x4C
  | .pessimistic => 0x53

def WriteType.code : WriteType → UInt8
  | .put => 0x50
  | .delete => 0x44
  | .lock => 0x4C
  | .rollback => 0x52

/-! ### The optional fields of a lock -/

inductive LockField
  | shortValue (v : List UInt8)
  | forUpdateTS (ts : TimeStamp)
  | txnSize (size : UInt64)
  | minCommitTS (ts : TimeStamp)
  | asyncCommitKeys (secondaries : List (List UInt8))
  | rollbackTS (tss : List TimeStamp)
  | lastChange (ts : TimeStamp) (estimatedVersions : UInt64)
  | txnSource (source : UInt64)
  | pessimConflict
  | generation (gen : UInt64)
  deriving DecidableEq

def LockField.tag : LockField → UInt8
  | .shortValue _ => 0x76
  | .forUpdateTS _ => 0x66
  | .txnSize _ => 0x74
  | .minCommitTS _ => 0x63
  | .asyncCommitKeys _ => 0x61
  | .rollbackTS _ => 0x72
  | .lastChange _ _ => 0x6C
  | .txnSource _ => 0x73
  | .pessimConflict => 0x46
  | .generation _ => 0x67

def LockField.payload : LockField → List UInt8
  | .shortValue v => UInt8.ofNat v.length :: v
  | .forUpdateTS ts => appendUint64BE ts
  | .txnSize size => appendUint64BE size
  | .minCommitTS ts => appendUint64BE ts
  | .asyncCommitKeys secondaries =>
    appendVarint (UInt64.ofNat secondaries.length) ++ secondaries.flatMap appendVarBytes
  | .rollbackTS tss => appendVarint (UInt64.ofNat tss.length) ++ tss.flatMap appendUint64BE
  | .lastChange ts estimatedVersions => appendUint64BE ts ++ appendVarint estimatedVersions
  | .txnSource source => appendVarint source
  | .pessimConflict => []
  | .generation gen => appendUint64BE gen

def LockField.encode (f : LockField) : List UInt8 := f.tag :: f.payload

def readLockField (tag : UInt8) : Reader UInt8 LockField RecordError :=
  if tag = 0x76 then readShortValue.map LockField.shortValue
  else if tag = 0x66 then readUint64BE.map LockField.forUpdateTS
  else if tag = 0x74 then readUint64BE.map LockField.txnSize
  else if tag = 0x63 then readUint64BE.map LockField.minCommitTS
  else if tag = 0x61 then (readRepeated readVarBytes).map LockField.asyncCommitKeys
  else if tag = 0x72 then (readRepeated readUint64BE).map LockField.rollbackTS
  else if tag = 0x6C then readUint64BE.bind fun ts => readVarint.map (LockField.lastChange ts)
  else if tag = 0x73 then readVarint.map LockField.txnSource
  else if tag = 0x46 then fun data => .ok (.pessimConflict, data)
  else if tag = 0x67 then readUint64BE.map LockField.generation
  else fun _ => .error .unknownLockTag

def LockRecord.set (l : LockRecord) : LockField → LockRecord
  | .shortValue v => { l with shortValue := some v }
  | .forUpdateTS ts => { l with forUpdateTS := ts }
  | .txnSize size => { l with txnSize := size }
  | .minCommitTS ts => { l with minCommitTS := ts }
  | .asyncCommitKeys secondaries =>
    { l with useAsyncCommit := true, secondaries := secondaries }
  | .rollbackTS tss => { l with rollbackTS := tss }
  | .lastChange ts estimatedVersions => { l with lastChange := ⟨ts, estimatedVersions⟩ }
  | .txnSource source => { l with txnSource := source }
  | .pessimConflict => { l with pessimisticLockWithConflict := true }
  | .generation gen => { l with generation := gen }

def fieldIf {φ : Type} (p : Prop) [Decidable p] (f : φ) : List φ := if p then [f] else []

def LockRecord.optionalFields (l : LockRecord) : List LockField :=
  List.flatten
    [(l.shortValue.filter (· ≠ [])).toList.map LockField.shortValue,
      fieldIf (l.forUpdateTS ≠ 0) (.forUpdateTS l.forUpdateTS),
      fieldIf (0 < l.txnSize) (.txnSize l.txnSize),
      fieldIf (l.minCommitTS ≠ 0) (.minCommitTS l.minCommitTS),
      fieldIf (l.useAsyncCommit = true) (.asyncCommitKeys l.secondaries),
      fieldIf (0 < l.rollbackTS.length) (.rollbackTS l.rollbackTS),
      fieldIf (l.lastChange.ts ≠ 0) (.lastChange l.lastChange.ts l.lastChange.estimatedVersions),
      fieldIf (0 < l.txnSource) (.txnSource l.txnSource),
      fieldIf (l.pessimisticLockWithConflict = true) .pessimConflict,
      fieldIf (0 < l.generation) (.generation l.generation)]

def LockRecord.marshal (l : LockRecord) : List UInt8 :=
  l.lockType :: (appendVarBytes l.primary ++ appendVarint l.startTS ++ appendVarint l.ttl ++
    l.optionalFields.flatMap LockField.encode)

open LockField

theorem shrinks_lockField (tag : UInt8) : (readLockField tag).Shrinks := by
  rw [readLockField]
  refine .ite (shrinks_shortValue.map _) ?_
  refine .ite (shrinks_uint64BE.map _) ?_
  refine .ite (shrinks_uint64BE.map _) ?_
  refine .ite (shrinks_uint64BE.map _) ?_
  refine .ite ((shrinks_repeated shrinks_varBytes).map _) ?_
  refine .ite ((shrinks_repeated shrinks_uint64BE).map _) ?_
  refine .ite (shrinks_uint64BE.bind fun _ => shrinks_varint.map _) ?_
  refine .ite (shrinks_varint.map _) ?_
  refine .ite (shrinks_pure _) ?_
  exact .ite (shrinks_uint64BE.map _) (shrinks_throw _)

def lockFields : FieldReader UInt8 LockField RecordError := ⟨readLockField, shrinks_lockField⟩

def readLockHeader : Reader UInt8 LockRecord RecordError :=
  readByte.bind fun lockType => readVarBytes.bind fun primary => readVarint.bind fun startTS =>
    readVarint.map fun ttl =>
      { lockType := lockType, primary := primary, startTS := startTS, ttl := ttl }

def unmarshalLock (data : List UInt8) : Except RecordError LockRecord :=
  match readLockHeader data with
  | .error e => .error e
  | .ok (l, rest) => (lockFields.readAll rest).map fun fs => fs.foldl LockRecord.set l

inductive WriteField
  | shortValue (v : List UInt8)
  | overlappedRollback
  | gcFence (ts : TimeStamp)
  | lastChange (ts : TimeStamp) (estimatedVersions : UInt64)
  | txnSource (source : UInt64)
  deriving DecidableEq

def WriteField.tag : WriteField → UInt8
  | .shortValue _ => 0x76
  | .overlappedRollback => 0x52
  | .gcFence _ => 0x46
  | .lastChange _ _ => 0x6C
  | .txnSource _ => 0x53

def WriteField.payload : WriteField → List UInt8
  | .shortValue v => UInt8.ofNat v.length :: v
  | .overlappedRollback => []
  | .gcFence ts => appendUint64BE ts
  | .lastChange ts estimatedVersions => appendUint64BE ts ++ appendVarint estimatedVersions
  | .txnSource source => appendVarint source

def WriteField.encode (f : WriteField) : List UInt8 := f.tag :: f.payload

def readWriteField (tag : UInt8) : Reader UInt8 WriteField RecordError :=
  if tag = 0x76 then readShortValue.map WriteField.shortValue
  else if tag = 0x52 then fun data => .ok (.overlappedRollback, data)
  else if tag = 0x46 then readUint64BE.map WriteField.gcFence
  else if tag = 0x6C then readUint64BE.bind fun ts => readVarint.map (WriteField.lastChange ts)
  else if tag = 0x53 then readVarint.map WriteField.txnSource
  else fun _ => .error .unknownWriteTag

def WriteRecord.set (w : WriteRecord) : WriteField → WriteRecord
  | .shortValue v => { w with shortValue := some v }
  | .overlappedRollback => { w with hasOverlappedRollback := true }
  | .gcFence ts => { w with gcFence := some ts }
  | .lastChange ts estimatedVersions => { w with lastChange := ⟨ts, estimatedVersions⟩ }
  | .txnSource source => { w with txnSource := source }

def WriteRecord.optionalFields (w : WriteRecord) : List WriteField :=
  List.flatten
    [(w.shortValue.filter (· ≠ [])).toList.map WriteField.shortValue,
      fieldIf (w.hasOverlappedRollback = true) .overlappedRollback,
      w.gcFence.toList.map WriteField.gcFence,
      fieldIf (w.lastChange.ts ≠ 0) (.lastChange w.lastChange.ts w.lastChange.estimatedVersions),
      fieldIf (0 < w.txnSource) (.txnSource w.txnSource)]

def WriteRecord.marshal (w : WriteRecord) : List UInt8 :=
  w.writeType :: (appendVarint w.startTS ++ w.optionalFields.flatMap WriteField.encode)

open WriteField

theorem shrinks_writeField (tag : UInt8) : (readWriteField tag).Shrinks := by
  rw [readWriteField]
  refine .ite (shrinks_shortValue.map _) ?_
  refine .ite (shrinks_pure _) ?_
  refine .ite (shrinks_uint64BE.map _) ?_
  refine .ite (shrinks_uint64BE.bind fun _ => shrinks_varint.map _) ?_
  exact .ite (shrinks_varint.map _) (shrinks_throw _)

def writeFields : FieldReader UInt8 WriteField RecordError :=
  ⟨readWriteField, shrinks_writeField⟩

def readWriteHeader : Reader UInt8 WriteRecord RecordError :=
  readByte.bind fun writeType => readVarint.map fun startTS =>
    { writeType := writeType, startTS := startTS }

def unmarshalWrite (data : List UInt8) : Except RecordError WriteRecord :=
  match readWriteHeader data with
  | .error e => .error e
  | .ok (w, rest) => (writeFields.readAll rest).map fun fs => fs.foldl WriteRecord.set w

/-- A short value has at most 255 bytes, and a slice as many elements as an `int` can count. -/
def LockField.Fits : LockField → Prop
  | .shortValue v => v.length ≤ shortValueMaxLen
  | .asyncCommitKeys secondaries =>
    secondaries.length < 2 ^ 63 ∧ ∀ key ∈ secondaries, key.length < 2 ^ 63
  | .rollbackTS tss => tss.length < 2 ^ 63
  | _ => True

theorem reads_lockField {f : LockField} (h : f.Fits) : (readLockField f.tag).Reads f.payload f := by
  cases f with
  | shortValue v => exact (reads_shortValue h).map LockField.shortValue
  | forUpdateTS ts => exact (reads_uint64BE ts).map LockField.forUpdateTS
  | txnSize size => exact (reads_uint64BE size).map LockField.txnSize
  | minCommitTS ts => exact (reads_uint64BE ts).map LockField.minCommitTS
  | asyncCommitKeys secondaries =>
    exact (reads_repeated h.1 fun key hkey => reads_varBytes (h.2 key hkey)).map LockField.asyncCommitKeys
  | rollbackTS tss => exact (reads_repeated h fun ts _ => reads_uint64BE ts).map LockField.rollbackTS
  | lastChange ts estimatedVersions =>
    exact (reads_uint64BE ts).bind ((reads_varint estimatedVersions).map (LockField.lastChange ts))
  | txnSource source => exact (reads_varint source).map LockField.txnSource
  | pessimConflict => exact fun rest => rfl
  | generation gen => exact (reads_uint64BE gen).map LockField.generation

def WriteField.Fits : WriteField → Prop
  | .shortValue v => v.length ≤ shortValueMaxLen
  | _ => True

theorem reads_writeField {f : WriteField} (h : f.Fits) :
    (readWriteField f.tag).Reads f.payload f := by
  cases f with
  | shortValue v => exact (reads_shortValue h).map WriteField.shortValue
  | overlappedRollback => exact fun rest => rfl
  | gcFence ts => exact (reads_uint64BE ts).map WriteField.gcFence
  | lastChange ts estimatedVersions =>
    exact (reads_uint64BE ts).bind ((reads_varint estimatedVersions).map (WriteField.lastChange ts))
  | txnSource source => exact (reads_varint source).map WriteField.txnSource

/-! ### Whole records -/

def LockRecord.required (l : LockRecord) : LockRecord where
  lockType := l.lockType
  primary := l.primary
  startTS := l.startTS
  ttl := l.ttl

def LockRecord.normalize (l : LockRecord) : LockRecord :=
  { l with shortValue := l.shortValue.filter (· ≠ []) }

structure LockRecord.Expressible (l : LockRecord) : Prop where
  shortValue : ∀ v, l.shortValue = some v → v.length ≤ shortValueMaxLen
  secondaries : l.useAsyncCommit = false → l.secondaries = []
  lastChange : l.lastChange.ts = 0 → l.lastChange.estimatedVersions = 0

structure LockRecord.Sized (l : LockRecord) : Prop where
  primary : l.primary.length < 2 ^ 63
  secondaries : l.secondaries.length < 2 ^ 63
  secondary : ∀ key ∈ l.secondaries, key.length < 2 ^ 63
  rollbackTS : l.rollbackTS.length < 2 ^ 63

theorem mem_fieldIf {φ : Type} {p : Prop} [Decidable p] {f g : φ} (h : g ∈ fieldIf p f) :
    p ∧ g = f := by
  rw [fieldIf] at h
  split at h
  · rename_i hp
    exact ⟨hp, mem_singleton.mp h⟩
  · cases h

theorem foldl_fieldIf {φ ρ : Type} {p : Prop} [Decidable p] {f : φ} {r : ρ} {set : ρ → φ → ρ}
    (h : ¬ p → set r f = r) : (fieldIf p f).foldl set r = set r f := by
  rw [fieldIf]
  split
  · rfl
  · rename_i hp
    exact (h hp).symm

theorem eq_zero_of_not_pos {v : UInt64} (h : ¬ 0 < v) : v = 0 :=
  le_antisymm (not_lt.mp h) UInt64.zero_le

variable {l : LockRecord} {w : WriteRecord}

theorem LockRecord.set_optionalFields (h : l.Expressible) :
    l.optionalFields.foldl LockRecord.set l.required = l.normalize := by
  have hshort : ∀ r : LockRecord, r.shortValue = none →
      ((l.shortValue.filter (· ≠ [])).toList.map LockField.shortValue).foldl set r =
        { r with shortValue := l.shortValue.filter (· ≠ []) } := by
    intro r hr
    cases l.shortValue.filter (· ≠ []) with
    | none =>
      show r = { r with shortValue := none }
      rw [← hr]
    | some v => rfl
  have hasync : ∀ r : LockRecord, r.useAsyncCommit = false → r.secondaries = [] →
      (fieldIf (l.useAsyncCommit = true) (.asyncCommitKeys l.secondaries)).foldl set r =
        { r with useAsyncCommit := l.useAsyncCommit, secondaries := l.secondaries } := by
    intro r hr hr'
    cases huse : l.useAsyncCommit with
    | true => rfl
    | false =>
      show r = { r with useAsyncCommit := false, secondaries := l.secondaries }
      rw [h.secondaries huse, ← hr, ← hr']
  have hconflict : ∀ r : LockRecord, r.pessimisticLockWithConflict = false →
      (fieldIf (l.pessimisticLockWithConflict = true) .pessimConflict).foldl set r =
        { r with pessimisticLockWithConflict := l.pessimisticLockWithConflict } := by
    intro r hr
    cases l.pessimisticLockWithConflict with
    | true => rfl
    | false =>
      show r = { r with pessimisticLockWithConflict := false }
      rw [← hr]
  rw [optionalFields, foldl_flatten]
  simp only [foldl_cons, foldl_nil]
  -- one field after another, from the first one on
  rw [hshort _ rfl]
  dsimp only [required]
  rw [foldl_fieldIf (p := l.forUpdateTS ≠ 0) fun hz => by rw [not_not.mp hz]; rfl]
  dsimp only [set]
  rw [foldl_fieldIf (p := 0 < l.txnSize) fun hz => by rw [eq_zero_of_not_pos hz]; rfl]
  dsimp only [set]
  rw [foldl_fieldIf (p := l.minCommitTS ≠ 0) fun hz => by rw [not_not.mp hz]; rfl]
  dsimp only [set]
  rw [hasync _ rfl rfl]
  dsimp only
  rw [foldl_fieldIf (p := 0 < l.rollbackTS.length) fun hz => by
    rw [List.length_eq_zero_iff.mp (Nat.eq_zero_of_not_pos hz)]; rfl]
  dsimp only [set]
  rw [foldl_fieldIf (p := l.lastChange.ts ≠ 0) fun hz => by
    rw [h.lastChange (not_not.mp hz), not_not.mp hz]; rfl]
  dsimp only [set]
  rw [foldl_fieldIf (p := 0 < l.txnSource) fun hz => by rw [eq_zero_of_not_pos hz]; rfl]
  dsimp only [set]
  rw [hconflict _ rfl]
  dsimp only
  rw [foldl_fieldIf (p := 0 < l.generation) fun hz => by rw [eq_zero_of_not_pos hz]; rfl]
  rfl

theorem LockRecord.fits_optionalFields (h : l.Expressible) (hsize : l.Sized) :
    ∀ f ∈ l.optionalFields, f.Fits := by
  intro f hf
  simp only [optionalFields, mem_flatten, mem_cons, not_mem_nil, or_false] at hf
  obtain ⟨fs, rfl | rfl | rfl | rfl | rfl | rfl | rfl | rfl | rfl | rfl, hf⟩ := hf
  · obtain ⟨v, hv, rfl⟩ := mem_map.mp hf
    rw [Option.mem_toList] at hv
    exact h.shortValue v (Option.filter_eq_some_iff.mp hv).1
  · rw [(mem_fieldIf hf).2]
    trivial
  · rw [(mem_fieldIf hf).2]
    trivial
  · rw [(mem_fieldIf hf).2]
    trivial
  · rw [(mem_fieldIf hf).2]
    exact ⟨hsize.secondaries, hsize.secondary⟩
  · rw [(mem_fieldIf hf).2]
    exact hsize.rollbackTS
  · rw [(mem_fieldIf hf).2]
    trivial
  · rw [(mem_fieldIf hf).2]
    trivial
  · rw [(mem_fieldIf hf).2]
    trivial
  · rw [(mem_fieldIf hf).2]
    trivial

theorem reads_lockHeader (h : l.primary.length < 2 ^ 63) : readLockHeader.Reads
      (l.lockType :: (appendVarBytes l.primary ++ appendVarint l.startTS ++ appendVarint l.ttl))
      l.required := by
  have hbyte : readByte.Reads [l.lockType] l.lockType := fun rest => rfl
  rw [append_assoc]
  exact hbyte.bind ((reads_varBytes h).bind ((reads_varint l.startTS).bind
    ((reads_varint l.ttl).map _)))

theorem unmarshalLock_marshal (h : l.Expressible) (hsize : l.Sized) :
    unmarshalLock l.marshal = .ok l.normalize := by
  have hfields : lockFields.readAll (l.optionalFields.flatMap LockField.encode) =
      .ok l.optionalFields :=
    FieldReader.readAll_flatMap LockField.tag LockField.payload fun f hf =>
      reads_lockField (l.fits_optionalFields h hsize f hf)
  rw [unmarshalLock, LockRecord.marshal, ← cons_append, reads_lockHeader hsize.primary]
  dsimp only
  rw [hfields, Except.map, l.set_optionalFields h]

def WriteRecord.required (w : WriteRecord) : WriteRecord where
  writeType := w.writeType
  startTS := w.startTS

def WriteRecord.normalize (w : WriteRecord) : WriteRecord :=
  { w with shortValue := w.shortValue.filter (· ≠ []) }

structure WriteRecord.Expressible (w : WriteRecord) : Prop where
  shortValue : ∀ v, w.shortValue = some v → v.length ≤ shortValueMaxLen
  lastChange : w.lastChange.ts = 0 → w.lastChange.estimatedVersions = 0

theorem WriteRecord.set_optionalFields (h : w.Expressible) :
    w.optionalFields.foldl WriteRecord.set w.required = w.normalize := by
  have hshort : ∀ r : WriteRecord, r.shortValue = none →
      ((w.shortValue.filter (· ≠ [])).toList.map WriteField.shortValue).foldl set r =
        { r with shortValue := w.shortValue.filter (· ≠ []) } := by
    intro r hr
    cases w.shortValue.filter (· ≠ []) with
    | none =>
      show r = { r with shortValue := none }
      rw [← hr]
    | some v => rfl
  have hoverlapped : ∀ r : WriteRecord, r.hasOverlappedRollback = false →
      (fieldIf (w.hasOverlappedRollback = true) .overlappedRollback).foldl set r =
        { r with hasOverlappedRollback := w.hasOverlappedRollback } := by
    intro r hr
    cases w.hasOverlappedRollback with
    | true => rfl
    | false =>
      show r = { r with hasOverlappedRollback := false }
      rw [← hr]
  have hfence : ∀ r : WriteRecord, r.gcFence = none →
      (w.gcFence.toList.map WriteField.gcFence).foldl set r = { r with gcFence := w.gcFence } := by
    intro r hr
    cases w.gcFence with
    | none =>
      show r = { r with gcFence := none }
      rw [← hr]
    | some ts => rfl
  rw [optionalFields, foldl_flatten]
  simp only [foldl_cons, foldl_nil]
  rw [hshort _ rfl]
  dsimp only [required]
  rw [hoverlapped _ rfl]
  dsimp only
  rw [hfence _ rfl]
  dsimp only
  rw [foldl_fieldIf (p := w.lastChange.ts ≠ 0) fun hz => by
    rw [h.lastChange (not_not.mp hz), not_not.mp hz]; rfl]
  dsimp only [set]
  rw [foldl_fieldIf (p := 0 < w.txnSource) fun hz => by rw [eq_zero_of_not_pos hz]; rfl]
  rfl

theorem WriteRecord.fits_optionalFields (h : w.Expressible) : ∀ f ∈ w.optionalFields, f.Fits := by
  intro f hf
  simp only [optionalFields, mem_flatten, mem_cons, not_mem_nil, or_false] at hf
  obtain ⟨fs, rfl | rfl | rfl | rfl | rfl, hf⟩ := hf
  · obtain ⟨v, hv, rfl⟩ := mem_map.mp hf
    rw [Option.mem_toList] at hv
    exact h.shortValue v (Option.filter_eq_some_iff.mp hv).1
  · rw [(mem_fieldIf hf).2]
    trivial
  · obtain ⟨ts, -, rfl⟩ := mem_map.mp hf
    trivial
  · rw [(mem_fieldIf hf).2]
    trivial
  · rw [(mem_fieldIf hf).2]
    trivial

theorem unmarshalWrite_marshal (h : w.Expressible) :
    unmarshalWrite w.marshal = .ok w.normalize := by
  have hbyte : readByte.Reads [w.writeType] w.writeType := fun rest => rfl
  have hheader : readWriteHeader.Reads (w.writeType :: appendVarint w.startTS) w.required :=
    hbyte.bind ((reads_varint w.startTS).map _)
  have hfields : writeFields.readAll (w.optionalFields.flatMap WriteField.encode) =
      .ok w.optionalFields :=
    FieldReader.readAll_flatMap WriteField.tag WriteField.payload fun f hf =>
      reads_writeField (w.fits_optionalFields h f hf)
  rw [unmarshalWrite, WriteRecord.marshal, ← cons_append, hheader]
  dsimp only
  rw [hfields, Except.map, w.set_optionalFields h]

/-- **Lock and write records survive serialization**, up to an empty short value; and the
optional fields are told apart by their tags, whichever of them are there and in whatever
order. -/
theorem records_survive :
    (∀ l : LockRecord, l.Expressible → l.Sized → unmarshalLock l.marshal = .ok l.normalize) ∧
    (∀ w : WriteRecord, w.Expressible → unmarshalWrite w.marshal = .ok w.normalize) ∧
    (∀ fs : List LockField, (∀ f ∈ fs, f.Fits) →
      lockFields.readAll (fs.flatMap LockField.encode) = .ok fs) ∧
    ∀ fs : List WriteField, (∀ f ∈ fs, f.Fits) →
      writeFields.readAll (fs.flatMap WriteField.encode) = .ok fs := by
  refine ⟨fun l h hsize => unmarshalLock_marshal h hsize, fun w h => unmarshalWrite_marshal h,
    fun fs h => ?_, fun fs h => ?_⟩
  · exact FieldReader.readAll_flatMap LockField.tag LockField.payload fun f hf =>
      reads_lockField (h f hf)
  · exact FieldReader.readAll_flatMap WriteField.tag WriteField.payload fun f hf =>
      reads_writeField (h f hf)

theorem records_survive_tags : unmarshalLock (LockRecord.marshal
        { lockType := 0x50, primary := [0x61], startTS := 10, ttl := 3000,
          shortValue := some [0x76, 0x66], useAsyncCommit := true, secondaries := [[0x72], []] }) =
      .ok { lockType := 0x50, primary := [0x61], startTS := 10, ttl := 3000,
            shortValue := some [0x76, 0x66], useAsyncCommit := true,
            secondaries := [[0x72], []] } ∧ unmarshalWrite (WriteRecord.marshal
        { writeType := 0x50, startTS := 10, shortValue := some [0x52], gcFence := some 7,
          hasOverlappedRollback := true }) =
      .ok { writeType := 0x50, startTS := 10, shortValue := some [0x52], gcFence := some 7,
            hasOverlappedRollback := true } := by
  constructor
  · refine records_survive.1 _ ⟨?_, ?_, ?_⟩ ⟨?_, ?_, ?_, ?_⟩
    · rintro v ⟨⟩
      decide
    · intro h
      cases h
    · exact fun _ => rfl
    all_goals decide
  · refine records_survive.2.1 _ ⟨?_, ?_⟩
    · rintro v ⟨⟩
      decide
    · exact fun _ => rfl

def Lock.record (l : Lock) : LockRecord where
  lockType := l.lockType.code
  primary := l.primary
  startTS := l.startTS
  ttl := l.ttl
  shortValue := l.shortValue
  forUpdateTS := l.forUpdateTS
  minCommitTS := l.minCommitTS
  useAsyncCommit := l.useAsyncCommit
  secondaries := l.secondaries

def Write.record (w : Write) : WriteRecord where
  writeType := w.writeType.code
  startTS := w.startTS
  shortValue := w.shortValue
  lastChange := ⟨w.lastChange.ts, UInt64.ofNat w.lastChange.estimatedVersions⟩

end Txntypes
