/-
Coprocessor responses: `EncodeSelectResponse`, `DecodeSelectResponse` and the encoding of
a datum in `internal/coprocessor/endpoint.go`.
-/
import Gookv.KeyOrder

namespace Coprocessor

open Codec Proposals List

inductive Datum
  | null
  | int64 (i64 : Int64)
  | uint64 (u64 : UInt64)
  | float64 (bits : UInt64)
  | string (str : List UInt8)
  | bytes (buf : List UInt8)
  deriving DecidableEq

abbrev Row := List Datum

def putUint16 (v : UInt16) : List UInt8 := [(v >>> 8).toUInt8, v.toUInt8]

def putUint32 (v : UInt32) : List UInt8 :=
  [(v >>> 24).toUInt8, (v >>> 16).toUInt8, (v >>> 8).toUInt8, v.toUInt8]

def encodeDatum : Datum → List UInt8
  | .null => [0x00]
  | .int64 i64 => 0x01 :: putUint64 i64.toUInt64
  | .uint64 u64 => 0x02 :: putUint64 u64
  | .float64 bits => 0x03 :: putUint64 bits
  | .string str => 0x04 :: putUint16 (UInt16.ofNat str.length) ++ str
  | .bytes buf => 0x05 :: putUint16 (UInt16.ofNat buf.length) ++ buf

def decodeWord (kind : String) (mk : UInt64 → Datum) (data : List UInt8) :
    Except String (Datum × ℕ) :=
  if data.length < 9 then .error s!"truncated {kind}"
  else .ok (mk (UInt64.ofNat (readFrom 0 ((data.drop 1).take 8))), 9)

def decodeBlob (kind : String) (mk : List UInt8 → Datum) (data : List UInt8) :
    Except String (Datum × ℕ) :=
  if data.length < 3 then .error s!"truncated {kind} length"
  else
    let slen := readFrom 0 ((data.drop 1).take 2)
    if data.length < 3 + slen then .error s!"truncated {kind} data"
    else .ok (mk ((data.drop 3).take slen), 3 + slen)

def decodeDatum : List UInt8 → Except String (Datum × ℕ)
  | [] => .error "empty datum"
  | tag :: data =>
    if tag = 0x00 then .ok (.null, 1)
    else if tag = 0x01 then decodeWord "int64" (fun v => .int64 v.toInt64) (tag :: data)
    else if tag = 0x02 then decodeWord "uint64" .uint64 (tag :: data)
    else if tag = 0x03 then decodeWord "float64" .float64 (tag :: data)
    else if tag = 0x04 then decodeBlob "string" .string (tag :: data)
    else if tag = 0x05 then decodeBlob "bytes" .bytes (tag :: data)
    else .error s!"unknown datum type: {tag.toNat}"

open Datum

def outputColumns (outputOffsets : List UInt32) (row : Row) : Row :=
  if 0 < outputOffsets.length then outputOffsets.filterMap fun off => row[off.toNat]? else row

def encodeRow (cols : Row) : List UInt8 :=
  UInt8.ofNat cols.length :: cols.flatMap encodeDatum

def encodeSelectResponse (rows : List Row) (outputOffsets : List UInt32) : List UInt8 :=
  putUint32 (UInt32.ofNat rows.length) ++
    rows.flatMap fun row => encodeRow (outputColumns outputOffsets row)

def decodeRow (i : ℕ) : ℕ → ℕ → List UInt8 → Except String (Row × List UInt8)
  | 0, _, data => .ok ([], data)
  | n + 1, j, data =>
    match decodeDatum data with
    | .error err => .error s!"decode datum row {i} col {j}: {err}"
    | .ok (d, k) => (decodeRow i n (j + 1) (data.drop k)).map fun p => (d :: p.1, p.2)

def decodeRows : ℕ → ℕ → List UInt8 → Except String (List Row)
  | 0, _, _ => .ok []
  | _ + 1, i, [] => .error s!"truncated row {i}"
  | n + 1, i, colCount :: data =>
    match decodeRow i colCount.toNat 0 data with
    | .error err => .error err
    | .ok (row, rest) => (decodeRows n (i + 1) rest).map fun rows => row :: rows

def decodeSelectResponse (data : List UInt8) : Except String (List Row) :=
  if data.length < 4 then .error "truncated select response"
  else decodeRows (readFrom 0 (data.take 4)) 0 (data.drop 4)

theorem readFrom_putUint16 (n : ℕ) : readFrom 0 (putUint16 (UInt16.ofNat n)) = n % 2 ^ 16 := by
  simp only [readFrom, putUint16, foldl_cons, foldl_nil, UInt16.toNat_toUInt8,
    UInt16.toNat_shiftRight, UInt16.toNat_ofNat', Nat.shiftRight_eq_div_pow, UInt16.reduceToNat,
    Nat.reduceMod, Nat.reducePow]
  omega

theorem readFrom_putUint32 (n : ℕ) : readFrom 0 (putUint32 (UInt32.ofNat n)) = n % 2 ^ 32 := by
  simp only [readFrom, putUint32, foldl_cons, foldl_nil, UInt32.toNat_toUInt8,
    UInt32.toNat_shiftRight, UInt32.toNat_ofNat', Nat.shiftRight_eq_div_pow, UInt32.reduceToNat,
    Nat.reduceMod, Nat.reducePow]
  omega

def Datum.Fits : Datum → Prop
  | .string str => str.length < 2 ^ 16
  | .bytes buf => buf.length < 2 ^ 16
  | _ => True

theorem decodeWord_putUint64 (kind : String) (mk : UInt64 → Datum) (tag : UInt8) (v : UInt64)
    (rest : List UInt8) : decodeWord kind mk (tag :: putUint64 v ++ rest) = .ok (mk v, 9) := by
  have hlen : ¬ (tag :: putUint64 v ++ rest).length < 9 := by
    rw [cons_append, length_cons, length_append, length_putUint64]
    omega
  have htake : ((tag :: putUint64 v ++ rest).drop 1).take 8 = putUint64 v := by
    rw [cons_append, drop_succ_cons, drop_zero, ← length_putUint64 v,
      take_left]
  rw [decodeWord, if_neg hlen, htake, readFrom_putUint64, UInt64.ofNat_toNat]

theorem decodeBlob_putUint16 (kind : String) (mk : List UInt8 → Datum) (tag : UInt8)
    (str rest : List UInt8) :
    decodeBlob kind mk (tag :: putUint16 (UInt16.ofNat str.length) ++ str ++ rest) =
      .ok (mk (str.take (str.length % 2 ^ 16)), 3 + str.length % 2 ^ 16) := by
  have hmod : str.length % 2 ^ 16 ≤ str.length := Nat.mod_le _ _
  have hslen : readFrom 0
      (((tag :: putUint16 (UInt16.ofNat str.length) ++ str ++ rest).drop 1).take 2) =
        str.length % 2 ^ 16 := by
    rw [← readFrom_putUint16]
    rfl
  have hdrop : (tag :: putUint16 (UInt16.ofNat str.length) ++ str ++ rest).drop 3 = str ++ rest :=
    rfl
  have hlen : (tag :: putUint16 (UInt16.ofNat str.length) ++ str ++ rest).length =
      3 + (str ++ rest).length := by
    simp only [putUint16, cons_append, nil_append, length_cons]
    omega
  have happend : (str ++ rest).length = str.length + rest.length := length_append
  rw [decodeBlob, if_neg (by omega)]
  dsimp only
  rw [hslen, if_neg (by omega), hdrop, take_append_of_le_length hmod]

theorem decodeDatum_encodeDatum (d : Datum) (rest : List UInt8) (k : ℕ) :
    decodeDatum (encodeDatum d ++ rest) = .ok (d, k) ↔ d.Fits ∧ k = (encodeDatum d).length := by
  -- strings and bytes: the part that is read is the whole iff nothing is cut off
  have hblob : ∀ str : List UInt8,
      (str.take (str.length % 2 ^ 16) = str ∧ 3 + str.length % 2 ^ 16 = k) ↔
        str.length < 2 ^ 16 ∧ k = 3 + str.length := by
    intro str
    rw [take_eq_self_iff]
    omega
  have hlength : ∀ tag : UInt8, ∀ str : List UInt8,
      (tag :: putUint16 (UInt16.ofNat str.length) ++ str).length = 3 + str.length := by
    intro tag str
    simp [putUint16]
    omega
  cases d with
  | null => simp [encodeDatum, decodeDatum, Fits, eq_comm]
  | int64 i64 =>
    have h : decodeDatum (encodeDatum (.int64 i64) ++ rest) = .ok (.int64 i64, 9) := by
      rw [← Int64.toInt64_toUInt64 i64]
      exact decodeWord_putUint64 "int64" (fun v => .int64 v.toInt64) 0x01 i64.toUInt64 rest
    rw [h]
    simp [Fits, encodeDatum, length_putUint64, eq_comm]
  | uint64 u64 =>
    have h : decodeDatum (encodeDatum (.uint64 u64) ++ rest) = .ok (.uint64 u64, 9) :=
      decodeWord_putUint64 "uint64" .uint64 0x02 u64 rest
    rw [h]
    simp [Fits, encodeDatum, length_putUint64, eq_comm]
  | float64 bits =>
    have h : decodeDatum (encodeDatum (.float64 bits) ++ rest) = .ok (.float64 bits, 9) :=
      decodeWord_putUint64 "float64" .float64 0x03 bits rest
    rw [h]
    simp [Fits, encodeDatum, length_putUint64, eq_comm]
  | string str =>
    have h : decodeDatum (encodeDatum (.string str) ++ rest) = _ :=
      decodeBlob_putUint16 "string" .string 0x04 str rest
    rw [h, Fits, encodeDatum, hlength, ← hblob str]
    simp
  | bytes buf =>
    have h : decodeDatum (encodeDatum (.bytes buf) ++ rest) = _ :=
      decodeBlob_putUint16 "bytes" .bytes 0x05 buf rest
    rw [h, Fits, encodeDatum, hlength, ← hblob buf]
    simp

/-! ### Rows -/

theorem map_eq_ok {α β : Type} {x : Except String α} {f : α → β} {b : β} :
    x.map f = .ok b ↔ ∃ a, x = .ok a ∧ f a = b := by
  cases x <;> simp [Except.map]

theorem decodeRow_succ_eq_ok {i n j : ℕ} {data rest : List UInt8} {cols : Row} :
    decodeRow i (n + 1) j data = .ok (cols, rest) ↔
      ∃ d k cols', decodeDatum data = .ok (d, k) ∧
        decodeRow i n (j + 1) (data.drop k) = .ok (cols', rest) ∧ cols = d :: cols' := by
  rw [decodeRow]
  cases decodeDatum data with
  | error err => simp
  | ok p =>
    obtain ⟨d, k⟩ := p
    simp only [map_eq_ok, Prod.exists, Prod.mk.injEq, Except.ok.injEq]
    constructor
    · rintro ⟨cols', rest', hrow, rfl, rfl⟩
      exact ⟨d, k, cols', ⟨rfl, rfl⟩, hrow, rfl⟩
    · rintro ⟨d', k', cols', ⟨rfl, rfl⟩, hrow, rfl⟩
      exact ⟨cols', rest, hrow, rfl, rfl⟩

theorem decodeRow_encode (i n j : ℕ) (cols : Row) (rest rest' : List UInt8) :
    decodeRow i n j (cols.flatMap encodeDatum ++ rest) = .ok (cols, rest') ↔
      n = cols.length ∧ (∀ d ∈ cols, d.Fits) ∧ rest' = rest := by
  induction cols generalizing n j with
  | nil =>
    cases n with
    | zero => simp [decodeRow, eq_comm]
    | succ n => simp [decodeRow_succ_eq_ok]
  | cons d cols ih =>
    cases n with
    | zero => simp [decodeRow]
    | succ n =>
      rw [flatMap_cons, append_assoc, decodeRow_succ_eq_ok, length_cons,
        Nat.add_right_cancel_iff, forall_mem_cons]
      constructor
      · rintro ⟨d', k, cols', hdatum, hrow, heq⟩
        obtain ⟨rfl, rfl⟩ : d = d' ∧ cols = cols' := by simpa using heq
        -- the datum fits, so the decoder is at the next one
        obtain ⟨hfits, rfl⟩ := (decodeDatum_encodeDatum d _ k).mp hdatum
        rw [drop_left, ih] at hrow
        exact ⟨hrow.1, ⟨hfits, hrow.2.1⟩, hrow.2.2⟩
      · rintro ⟨hn, ⟨hfits, hall⟩, hrest⟩
        refine ⟨d, _, cols, (decodeDatum_encodeDatum d _ _).mpr ⟨hfits, rfl⟩, ?_, rfl⟩
        rw [drop_left, ih]
        exact ⟨hn, hall, hrest⟩

def Fits (cols : Row) : Prop := cols.length < 2 ^ 8 ∧ ∀ d ∈ cols, d.Fits

theorem decodeRows_succ_eq_ok {n i : ℕ} {colCount : UInt8} {data : List UInt8} {rows : List Row} :
    decodeRows (n + 1) i (colCount :: data) = .ok rows ↔
      ∃ row rest rows', decodeRow i colCount.toNat 0 data = .ok (row, rest) ∧
        decodeRows n (i + 1) rest = .ok rows' ∧ rows = row :: rows' := by
  rw [decodeRows]
  cases decodeRow i colCount.toNat 0 data with
  | error err => simp
  | ok p =>
    obtain ⟨row, rest⟩ := p
    simp only [map_eq_ok, Prod.mk.injEq, Except.ok.injEq]
    constructor
    · rintro ⟨rows', hrows, rfl⟩
      exact ⟨row, rest, rows', ⟨rfl, rfl⟩, hrows, rfl⟩
    · rintro ⟨row', rest', rows', ⟨rfl, rfl⟩, hrows, rfl⟩
      exact ⟨rows', hrows, rfl⟩

theorem decodeRows_encode (n i : ℕ) (rows : List Row) :
    decodeRows n i (rows.flatMap encodeRow) = .ok rows ↔
      n = rows.length ∧ ∀ cols ∈ rows, Fits cols := by
  induction rows generalizing n i with
  | nil =>
    cases n with
    | zero | succ n => simp [decodeRows]
  | cons cols rows ih =>
    cases n with
    | zero => simp [decodeRows]
    | succ n =>
      have hcount : (UInt8.ofNat cols.length).toNat = cols.length ↔ cols.length < 2 ^ 8 := by
        rw [UInt8.toNat_ofNat']
        omega
      rw [flatMap_cons, encodeRow, cons_append, decodeRows_succ_eq_ok,
        length_cons, Nat.add_right_cancel_iff, forall_mem_cons]
      constructor
      · rintro ⟨cols', rest, rows', hrow, hrows, heq⟩
        obtain ⟨rfl, rfl⟩ : cols = cols' ∧ rows = rows' := by simpa using heq
        obtain ⟨hlen, hall, rfl⟩ := (decodeRow_encode _ _ _ _ _ _).mp hrow
        rw [ih] at hrows
        exact ⟨hrows.1, ⟨hcount.mp hlen, hall⟩, hrows.2⟩
      · rintro ⟨hn, ⟨hlen, hall⟩, hrows⟩
        refine ⟨cols, rows.flatMap encodeRow, rows, ?_, (ih n (i + 1)).mpr ⟨hn, hrows⟩, rfl⟩
        rw [decodeRow_encode]
        exact ⟨hcount.mpr hlen, hall, rfl⟩

def selected (outputOffsets : List UInt32) (row : Row) : Row :=
  if outputOffsets = [] then row else outputOffsets.map fun off => row.getD off.toNat .null

def ValidOffsets (rows : List Row) (outputOffsets : List UInt32) : Prop :=
  ∀ row ∈ rows, ∀ off ∈ outputOffsets, off.toNat < row.length

theorem outputColumns_eq_selected {outputOffsets : List UInt32} {row : Row}
    (h : ∀ off ∈ outputOffsets, off.toNat < row.length) :
    outputColumns outputOffsets row = selected outputOffsets row := by
  rw [outputColumns, selected]
  by_cases hnil : outputOffsets = []
  · rw [if_neg (by simp [hnil]), if_pos hnil]
  · rw [if_pos (length_pos_iff.mpr hnil), if_neg hnil, ← filterMap_eq_map]
    apply filterMap_congr
    intro off hoff
    have hlt := h off hoff
    simp [getElem?_eq_getElem hlt, getD_eq_getElem?_getD]

theorem decodeSelectResponse_encode (rows : List Row) (outputOffsets : List UInt32) :
    decodeSelectResponse (encodeSelectResponse rows outputOffsets) =
      decodeRows (rows.length % 2 ^ 32) 0
        ((rows.map (outputColumns outputOffsets)).flatMap encodeRow) := by
  rw [decodeSelectResponse, encodeSelectResponse, if_neg (by simp [putUint32]),
    ← readFrom_putUint32, flatMap_map]
  rfl

/-- **Responses decode to what was encoded iff every number fits in its field**: the
number of rows in four bytes, the number of columns of every row in one, and the length
of every string in two. -/
theorem decodeSelectResponse_iff (rows : List Row) (outputOffsets : List UInt32)
    (hvalid : ValidOffsets rows outputOffsets) :
    decodeSelectResponse (encodeSelectResponse rows outputOffsets) =
        .ok (rows.map (selected outputOffsets)) ↔
      rows.length < 2 ^ 32 ∧ ∀ row ∈ rows, Fits (selected outputOffsets row) := by
  have hcols : rows.map (outputColumns outputOffsets) = rows.map (selected outputOffsets) :=
    map_congr_left fun row hrow => outputColumns_eq_selected (hvalid row hrow)
  have hcount : rows.length % 2 ^ 32 = rows.length ↔ rows.length < 2 ^ 32 := by omega
  rw [decodeSelectResponse_encode, hcols, decodeRows_encode, length_map, hcount]
  simp

theorem decodeSelectResponse_two :
    ValidOffsets [[.null, .string [1, 2]], [.uint64 7, .int64 (-1)]] [1] ∧
      decodeSelectResponse (encodeSelectResponse
          [[.null, .string [1, 2]], [.uint64 7, .int64 (-1)]] [1]) =
        .ok [[.string [1, 2]], [.int64 (-1)]] := by
  have hvalid : ValidOffsets [[.null, .string [1, 2]], [.uint64 7, .int64 (-1)]] [1] := by
    simp [ValidOffsets]
  refine ⟨hvalid, (decodeSelectResponse_iff _ _ hvalid).mpr ⟨by decide, ?_⟩⟩
  simp [selected, Fits, Datum.Fits]

theorem decodeSelectResponse_wide : ValidOffsets [List.replicate 256 .null] [] ∧
      decodeSelectResponse (encodeSelectResponse [List.replicate 256 .null] []) = .ok [[]] ∧
      decodeSelectResponse (encodeSelectResponse [List.replicate 256 .null] []) ≠
        .ok ([List.replicate 256 .null].map (selected [])) := by
  have hvalid : ValidOffsets [replicate 256 .null] [] := by
    intro row _ off hoff
    cases hoff
  have hdec : decodeSelectResponse (encodeSelectResponse [replicate 256 .null] []) =
      .ok [[]] := by
    decide +kernel
  refine ⟨hvalid, hdec, ?_⟩
  rw [hdec]
  intro h
  cases h

end Coprocessor
