/-
Encoded keys: `pkg/codec/bytes.go`, the descending timestamps of `pkg/codec/number.go`
and `internal/storage/mvcc/key.go`.
-/
import Gookv.GroupCode
import Gookv.TxnTypes
import Gookv.Proposals

namespace Codec

open Txntypes Raftstore Proposals GroupCode List

def encGroupSize : ℕ := 8

def encMarker : UInt8 := 0xFF

def encPad : UInt8 := 0x00

inductive Error
  | insufficientData
  | invalidEncodedKey
  deriving DecidableEq

/-- `EncodeBytes`: full groups of eight bytes, and a last group that is padded. -/
def encodeBytes : List UInt8 → List UInt8
  | b₀ :: b₁ :: b₂ :: b₃ :: b₄ :: b₅ :: b₆ :: b₇ :: rest =>
    b₀ :: b₁ :: b₂ :: b₃ :: b₄ :: b₅ :: b₆ :: b₇ :: encMarker :: encodeBytes rest
  | data =>
    let padCount := encGroupSize - data.length
    data ++ List.replicate padCount encPad ++ [encMarker - UInt8.ofNat padCount]

/-- The last group of `DecodeBytes`: the bytes before the padding, which must be zero. -/
def decodeLast (group : List UInt8) (marker : UInt8) (rest : List UInt8) :
    Except Error (List UInt8 × List UInt8) :=
  let padCount := (encMarker - marker).toNat
  if encGroupSize < padCount then .error .invalidEncodedKey
  else
    let realLen := encGroupSize - padCount
    if (group.drop realLen).all (· == encPad) then .ok (group.take realLen, rest)
    else .error .invalidEncodedKey

/-- `DecodeBytes`: the decoded bytes and what follows them. -/
def decodeBytes : List UInt8 → Except Error (List UInt8 × List UInt8)
  | b₀ :: b₁ :: b₂ :: b₃ :: b₄ :: b₅ :: b₆ :: b₇ :: marker :: rest =>
    let group := [b₀, b₁, b₂, b₃, b₄, b₅, b₆, b₇]
    if marker = encMarker then (decodeBytes rest).map fun p => (group ++ p.1, p.2)
    else decodeLast group marker rest
  | _ => .error .insufficientData

theorem length_lt_of_short {α : Type*} {data : List α}
    (h : ∀ b₀ b₁ b₂ b₃ b₄ b₅ b₆ b₇ rest,
      data = b₀ :: b₁ :: b₂ :: b₃ :: b₄ :: b₅ :: b₆ :: b₇ :: rest → False) : data.length < 8 := by
  by_contra hlt
  match data, not_lt.mp hlt with
  | b₀ :: b₁ :: b₂ :: b₃ :: b₄ :: b₅ :: b₆ :: b₇ :: rest, _ => exact h _ _ _ _ _ _ _ _ _ rfl

theorem encodeBytes_of_short {data : List UInt8} (h : data.length < 8) : encodeBytes data =
      data ++ List.replicate (8 - data.length) encPad ++
        [encMarker - UInt8.ofNat (8 - data.length)] := by
  unfold encodeBytes
  split
  · simp only [length_cons] at h
    omega
  · rfl

def bytesCode : GroupCode UInt8 where
  size := 8
  pad := 0
  mark n := UInt8.ofNat (0xF7 + n)
  size_pos := by decide
  pad_le b := by
    rw [UInt8.le_iff_toNat_le]
    exact Nat.zero_le _
  mark_lt i j hij hj := by
    rw [UInt8.lt_iff_toNat_lt, UInt8.toNat_ofNat', UInt8.toNat_ofNat']
    omega

theorem encMarker_sub {n : ℕ} (hn : n < 8) :
    encMarker - UInt8.ofNat (8 - n) = UInt8.ofNat (0xF7 + n) := by
  interval_cases n <;> rfl

theorem encodeBytes_eq (data : List UInt8) : encodeBytes data = bytesCode.encode data := by
  rw [encode]
  induction data using encodeBytes.induct with
  | case1 b₀ b₁ b₂ b₃ b₄ b₅ b₆ b₇ rest ih =>
    rw [encodeBytes, ih]
    rfl
  | case2 data hshort =>
    have hlen : data.length < 8 := length_lt_of_short hshort
    have h : 0 + data.length < bytesCode.size := by
      show 0 + data.length < 8
      omega
    rw [encodeBytes_of_short hlen, encodeFrom_of_short h, encMarker_sub hlen, zero_add]
    rfl

variable {a b s t : List UInt8}

theorem encodeBytes_append_lt :
    encodeBytes a ++ s < encodeBytes b ++ t ↔ a < b ∨ a = b ∧ s < t := by
  rw [encodeBytes_eq, encodeBytes_eq, append_lt_append]

theorem encodeBytes_append_inj : encodeBytes a ++ s = encodeBytes b ++ t ↔ a = b ∧ s = t := by
  rw [encodeBytes_eq, encodeBytes_eq, GroupCode.append_inj]

theorem encodeBytes_lt : encodeBytes a < encodeBytes b ↔ a < b := by
  rw [encodeBytes_eq, encodeBytes_eq, encode_lt]

theorem encodeBytes_le : encodeBytes a ≤ encodeBytes b ↔ a ≤ b := by
  rw [encodeBytes_eq, encodeBytes_eq, encode_le]

theorem self_le_encodeBytes (a : List UInt8) : a ≤ encodeBytes a := by
  have htop : ∀ b : UInt8, b ≤ bytesCode.mark bytesCode.size := by
    intro b
    rw [UInt8.le_iff_toNat_le]
    exact Nat.le_of_lt_succ b.toNat_lt
  rw [encodeBytes_eq]
  exact le_encodeFrom htop 0 0 a

theorem encodeBytes_ne_nil (data : List UInt8) : encodeBytes data ≠ [] := by
  unfold encodeBytes
  split <;> simp

/-! ### Decoding -/

theorem decodeBytes_group {group : List UInt8} (hgroup : group.length = 8) (marker : UInt8)
    (rest : List UInt8) : decodeBytes (group ++ marker :: rest) =
      if marker = encMarker then (decodeBytes rest).map fun p => (group ++ p.1, p.2)
      else decodeLast group marker rest := by
  match group, hgroup with
  | [b₀, b₁, b₂, b₃, b₄, b₅, b₆, b₇], _ => rw [← decodeBytes]; rfl

theorem decodeBytes_encodeBytes (data rest : List UInt8) :
    decodeBytes (encodeBytes data ++ rest) = .ok (data, rest) := by
  induction data using encodeBytes.induct with
  | case1 b₀ b₁ b₂ b₃ b₄ b₅ b₆ b₇ data ih =>
    rw [encodeBytes]
    simp only [cons_append]
    rw [decodeBytes, if_pos rfl, ih]
    rfl
  | case2 data hshort =>
    have hlen : data.length < 8 := length_lt_of_short hshort
    have hgroup : (data ++ replicate (8 - data.length) encPad).length = 8 := by
      rw [length_append, length_replicate]
      omega
    have hmark : encMarker - UInt8.ofNat (8 - data.length) ≠ encMarker ∧
        (encMarker - (encMarker - UInt8.ofNat (8 - data.length))).toNat = 8 - data.length := by
      generalize data.length = n at hlen
      interval_cases n <;> decide
    rw [encodeBytes_of_short hlen, append_assoc, singleton_append,
      decodeBytes_group hgroup, if_neg hmark.1]
    -- the marker gives back the length, and only padding is cut off
    have hreal : encGroupSize - (8 - data.length) = data.length := by
      show 8 - (8 - data.length) = data.length
      omega
    have hpad : ¬ encGroupSize < 8 - data.length := by
      show ¬ 8 < 8 - data.length
      omega
    rw [decodeLast]
    simp only [hmark.2, hpad, if_false, hreal, drop_left, take_left, all_replicate]
    simp

theorem eq_of_decodeLast {group tail key rest : List UInt8} {marker : UInt8}
    (hgroup : group.length = 8) (hne : marker ≠ encMarker)
    (h : decodeLast group marker tail = .ok (key, rest)) :
    group ++ marker :: tail = encodeBytes key ++ rest := by
  have hsize : encGroupSize = 8 := rfl
  rw [decodeLast] at h
  simp only [hsize] at h
  split at h
  · cases h
  · rename_i hcount
    split at h
    · rename_i hpad
      obtain ⟨hkey, rfl⟩ : group.take (8 - (encMarker - marker).toNat) = key ∧ tail = rest := by
        simpa using h
      -- the marker tells how many bytes are padding, at least one and at most eight
      generalize hc : (encMarker - marker).toNat = c at hcount hpad hkey
      have hle : c ≤ 8 := not_lt.mp hcount
      have hpos : 0 < c := by
        rw [Nat.pos_iff_ne_zero]
        rintro rfl
        have hzero : encMarker - marker = 0 := UInt8.toNat_inj.mp hc
        exact hne (by rw [← UInt8.sub_add_cancel encMarker marker, hzero, UInt8.zero_add])
      have hlen : key.length = 8 - c := by
        rw [← hkey, length_take, hgroup]
        omega
      have hdrop : group.drop (8 - c) = replicate c encPad := by
        rw [eq_replicate_iff, length_drop, hgroup]
        exact ⟨by omega, by simpa using hpad⟩
      have hmark : encMarker - UInt8.ofNat c = marker := by
        rw [← hc, UInt8.ofNat_toNat, sub_sub_cancel]
      rw [encodeBytes_of_short (by omega), hlen, Nat.sub_sub_self hle, hmark, ← hdrop, ← hkey,
        take_append_drop, append_assoc, singleton_append]
    · cases h

theorem eq_of_decodeBytes {data key rest : List UInt8} (h : decodeBytes data = .ok (key, rest)) :
    data = encodeBytes key ++ rest := by
  induction data using decodeBytes.induct generalizing key rest with
  | case1 b₀ b₁ b₂ b₃ b₄ b₅ b₆ b₇ tail ih =>
    rw [decodeBytes, if_pos rfl] at h
    cases hdec : decodeBytes tail with
    | error e =>
      rw [hdec] at h
      cases h
    | ok p =>
      rw [hdec] at h
      cases h
      rw [ih hdec]
      rfl
  | case2 b₀ b₁ b₂ b₃ b₄ b₅ b₆ b₇ marker tail hne =>
    rw [decodeBytes, if_neg hne] at h
    exact eq_of_decodeLast rfl hne h
  | case3 data hshort =>
    rw [decodeBytes] at h
    · cases h
    · exact hshort

/-- `EncodeUint64Desc`: the complement in big-endian order, so that later comes first. -/
def encodeUint64Desc (dst : List UInt8) (v : UInt64) : List UInt8 := dst ++ putUint64 (~~~v)

def decodeUint64Desc (data : List UInt8) : Except Error (UInt64 × List UInt8) :=
  if data.length < 8 then .error .insufficientData
  else .ok (~~~(UInt64.ofNat (bigEndian data)), data.drop 8)

end Codec

namespace Mvcc

open Txntypes Codec Proposals Raftstore

/-- `EncodeKey`: the key of a record in CF_WRITE or CF_DEFAULT. -/
def encodeKey (key : Key) (ts : TimeStamp) : Key := encodeUint64Desc (encodeBytes key) ts

/-- `EncodeLockKey`: the key of a lock. -/
def encodeLockKey (key : Key) : Key := encodeBytes key

def decodeKey (encodedKey : Key) : Except Error (Key × TimeStamp) :=
  match decodeBytes encodedKey with
  | .error e => .error e
  | .ok (key, rest) =>
    if rest.length < 8 then .ok (key, 0)
    else (decodeUint64Desc rest).map fun p => (key, p.1)

theorem decodeKey_encodeLockKey (key : Key) : decodeKey (encodeLockKey key) = .ok (key, 0) := by
  have h := decodeBytes_encodeBytes key []
  rw [List.append_nil] at h
  rw [decodeKey, encodeLockKey, h]
  rfl

theorem decodeKey_encodeKey (key : Key) (ts : TimeStamp) :
    decodeKey (encodeKey key ts) = .ok (key, ts) := by
  have hlen : (putUint64 (~~~ts)).length = 8 := rfl
  have hts : decodeUint64Desc (putUint64 (~~~ts)) = .ok (ts, []) := by
    have hbig := bigEndian_putUint64 (~~~ts) []
    rw [List.append_nil] at hbig
    rw [decodeUint64Desc, if_neg (by omega), hbig, UInt64.ofNat_toNat, UInt64.not_not,
      List.drop_of_length_le hlen.le]
  rw [decodeKey, encodeKey, encodeUint64Desc, decodeBytes_encodeBytes]
  dsimp only
  rw [if_neg (by omega), hts]
  rfl

end Mvcc
