/-
The order of encoded keys: the descending variants of `pkg/codec/bytes.go` and
`pkg/codec/number.go`, and the keys of `internal/storage/mvcc/key.go` as a whole.

Each of the encodings is an ordered code (`OrderedCode`), with its decoder.
-/
import Gookv.OrderedCode
import Gookv.Codec

namespace Codec

open Txntypes Raftstore Proposals List

theorem encodeBytes_code : OrderedCode (· < ·) encodeBytes decodeBytes where
  append_lt _ _ _ _ := encodeBytes_append_lt
  decode_append := decodeBytes_encodeBytes
  eq_of_decode _ _ _ := eq_of_decodeBytes

def encodeBytesDesc (data : List UInt8) : List UInt8 := (encodeBytes data).map (~~~·)

def decodeBytesDesc : List UInt8 → Except Error (List UInt8 × List UInt8)
  | b₀ :: b₁ :: b₂ :: b₃ :: b₄ :: b₅ :: b₆ :: b₇ :: m :: rest =>
    let group := [~~~b₀, ~~~b₁, ~~~b₂, ~~~b₃, ~~~b₄, ~~~b₅, ~~~b₆, ~~~b₇]
    let marker := ~~~m
    if marker = encMarker then (decodeBytesDesc rest).map fun p => (group ++ p.1, p.2)
    else decodeLast group marker rest
  | _ => .error .insufficientData

theorem complement_lt (x y : UInt8) : ~~~x < ~~~y ↔ y < x := by
  rw [UInt8.lt_iff_toNat_lt, UInt8.lt_iff_toNat_lt, UInt8.toNat_not, UInt8.toNat_not,
    UInt8.size]
  have hx := x.toNat_lt
  have hy := y.toNat_lt
  omega

theorem complement_involutive : Function.Involutive fun x : UInt8 => ~~~x := fun _ => UInt8.not_not

theorem map_complement_complement (l : List UInt8) : (l.map (~~~·)).map (~~~·) = l :=
  map_involutive_iff.mpr complement_involutive l

theorem decodeLast_map (group : List UInt8) (marker : UInt8) (rest : List UInt8)
    (f : List UInt8 → List UInt8) : decodeLast group marker (f rest) =
      (decodeLast group marker rest).map fun p => (p.1, f p.2) := by
  simp only [decodeLast]
  split
  · rfl
  · split <;> rfl

theorem decodeBytesDesc_eq (data : List UInt8) : decodeBytesDesc data =
      (decodeBytes (data.map (~~~·))).map fun p => (p.1, p.2.map (~~~·)) := by
  induction data using decodeBytesDesc.induct with
  | case1 b₀ b₁ b₂ b₃ b₄ b₅ b₆ b₇ m rest marker hfull ih =>
    rw [decodeBytesDesc, if_pos hfull, ih]
    simp only [map_cons]
    rw [decodeBytes, if_pos hfull]
    cases decodeBytes (rest.map (~~~·)) <;> rfl
  | case2 b₀ b₁ b₂ b₃ b₄ b₅ b₆ b₇ m rest marker hlast =>
    rw [decodeBytesDesc, if_neg hlast]
    simp only [map_cons]
    rw [decodeBytes, if_neg hlast, ← decodeLast_map, map_complement_complement]
  | case3 data hshort =>
    rw [decodeBytesDesc, decodeBytes]
    · rfl
    · intro b₀ b₁ b₂ b₃ b₄ b₅ b₆ b₇ m rest heq
      have hdata := congrArg (map (~~~·)) heq
      rw [map_complement_complement] at hdata
      exact hshort _ _ _ _ _ _ _ _ _ _ hdata
    · exact hshort

theorem encodeBytesDesc_code : OrderedCode (fun a b : List UInt8 => b < a) encodeBytesDesc
    decodeBytesDesc := by
  rw [show decodeBytesDesc = _ from funext decodeBytesDesc_eq]
  exact encodeBytes_code.complement complement_lt complement_involutive

/-! ### Numbers -/

def readFrom (n : ℕ) (l : List UInt8) : ℕ := l.foldl (fun n b => n * 256 + b.toNat) n

section
variable {l l' : List UInt8} (hlen : l.length = l'.length)
include hlen

theorem readFrom_lt_of_lt {n m : ℕ} (h : n < m) : readFrom n l < readFrom m l' := by
  induction l generalizing l' n m with
  | nil =>
    obtain rfl := length_eq_zero_iff.mp hlen.symm
    exact h
  | cons x l ih =>
    cases l' with
    | nil => cases hlen
    | cons y l' =>
      have hx := x.toNat_lt
      have hhead : n * 256 + x.toNat < m * 256 + y.toNat := by omega
      exact ih (Nat.add_right_cancel hlen) hhead

theorem readFrom_lt (n : ℕ) : readFrom n l < readFrom n l' ↔ l < l' := by
  induction l generalizing l' n with
  | nil =>
    obtain rfl := length_eq_zero_iff.mp hlen.symm
    simp
  | cons x l ih =>
    cases l' with
    | nil => cases hlen
    | cons y l' =>
      have hlen' : l.length = l'.length := Nat.add_right_cancel hlen
      show readFrom (n * 256 + x.toNat) l < readFrom (n * 256 + y.toNat) l' ↔ _
      rw [cons_lt_cons_iff, UInt8.lt_iff_toNat_lt]
      rcases lt_trichotomy x.toNat y.toNat with hlt | heq | hgt
      · have hhead : n * 256 + x.toNat < n * 256 + y.toNat := by omega
        simp [readFrom_lt_of_lt hlen' hhead, hlt]
      · rw [UInt8.toNat_inj] at heq
        subst heq
        rw [ih hlen']
        simp
      · have hhead : n * 256 + y.toNat < n * 256 + x.toNat := by omega
        have hne : x ≠ y := by
          rintro rfl
          exact lt_irrefl _ hgt
        simp [(readFrom_lt_of_lt hlen'.symm hhead).not_gt, hgt.not_gt, hne]

theorem readFrom_inj (h : readFrom 0 l = readFrom 0 l') : l = l' := by
  rcases lt_trichotomy l l' with hlt | heq | hgt
  · exact absurd ((readFrom_lt hlen 0).mpr hlt) (by omega)
  · exact heq
  · exact absurd ((readFrom_lt hlen.symm 0).mpr hgt) (by omega)

end

theorem length_putUint64 (v : UInt64) : (putUint64 v).length = 8 := rfl

theorem readFrom_putUint64 (v : UInt64) : readFrom 0 (putUint64 v) = v.toNat := by
  rw [← bigEndian_putUint64 v []]
  rfl

theorem putUint64_lt (v w : UInt64) : putUint64 v < putUint64 w ↔ v < w := by
  have hlen : (putUint64 v).length = (putUint64 w).length :=
    (length_putUint64 v).trans (length_putUint64 w).symm
  rw [← readFrom_lt hlen 0, readFrom_putUint64, readFrom_putUint64, UInt64.lt_iff_toNat_lt]

theorem putUint64_bigEndian {data : List UInt8} (hlen : 8 ≤ data.length) :
    putUint64 (UInt64.ofNat (bigEndian data)) = data.take 8 := by
  have htake : (data.take 8).length = 8 := by
    rw [length_take]
    omega
  have hbound : bigEndian data < 2 ^ 64 := by
    -- the largest number of eight bytes
    have hmax : ∀ l : List UInt8, readFrom 0 l < 256 ^ l.length := by
      intro l
      induction l using reverseRecOn with
      | nil => exact Nat.one_pos
      | append_singleton l b ih =>
        have hb := b.toNat_lt
        have hlast : readFrom 0 (l ++ [b]) = readFrom 0 l * 256 + b.toNat := by
          simp [readFrom]
        rw [hlast, length_append, length_singleton, pow_succ]
        omega
    have h := hmax (data.take 8)
    rw [htake] at h
    exact h
  apply readFrom_inj
  · rw [htake, length_putUint64]
  · rw [readFrom_putUint64, UInt64.toNat_ofNat_of_lt' hbound]
    rfl

theorem decodeUint64Desc_putUint64 (v : UInt64) (rest : List UInt8) :
    decodeUint64Desc (putUint64 (~~~v) ++ rest) = .ok (v, rest) := by
  have hlen : ¬ (putUint64 (~~~v) ++ rest).length < 8 := by
    rw [length_append, length_putUint64]
    omega
  rw [decodeUint64Desc, if_neg hlen, bigEndian_putUint64, UInt64.ofNat_toNat, UInt64.not_not,
    ← length_putUint64 (~~~v), drop_left]

theorem complement_lt64 (v w : UInt64) : ~~~v < ~~~w ↔ w < v := by
  rw [UInt64.lt_iff_toNat_lt, UInt64.lt_iff_toNat_lt, UInt64.toNat_not, UInt64.toNat_not,
    UInt64.size]
  have hv := v.toNat_lt
  have hw := w.toNat_lt
  omega

theorem encodeUint64Desc_code : OrderedCode (fun v w : UInt64 => w < v) (encodeUint64Desc [])
    decodeUint64Desc := by
  refine OrderedCode.of_length (fun v => length_putUint64 (~~~v)) ?_ ?_
    decodeUint64Desc_putUint64 ?_
  · intro v w
    show putUint64 (~~~v) < putUint64 (~~~w) ↔ w < v
    rw [putUint64_lt, complement_lt64]
  · intro v w h
    have hdec := decodeUint64Desc_putUint64 v []
    rw [show putUint64 (~~~v) = putUint64 (~~~w) from h, decodeUint64Desc_putUint64] at hdec
    cases hdec
    rfl
  · intro data v rest h
    rw [decodeUint64Desc] at h
    split at h
    · cases h
    · rename_i hlen
      cases h
      show data = putUint64 (~~~(~~~(UInt64.ofNat (bigEndian data)))) ++ data.drop 8
      rw [UInt64.not_not, putUint64_bigEndian (not_lt.mp hlen), take_append_drop]

end Codec

namespace Mvcc

open Txntypes Codec

theorem encodeKey_lt (k₁ k₂ : Key) (t₁ t₂ : TimeStamp) :
    encodeKey k₁ t₁ < encodeKey k₂ t₂ ↔ k₁ < k₂ ∨ k₁ = k₂ ∧ t₂ < t₁ :=
  encodeBytes_code.pair_lt encodeUint64Desc_code k₁ k₂ t₁ t₂

/-- **The encoding of MVCC keys** keeps the order of user keys and turns that of
timestamps around, and decoding is exact: it undoes encoding, whatever follows, and
accepts nothing else.  The descending variants do the same with the order reversed. -/
theorem mvccKeys_ordered_exact :
    (∀ k₁ k₂ t₁ t₂, encodeKey k₁ t₁ < encodeKey k₂ t₂ ↔ k₁ < k₂ ∨ k₁ = k₂ ∧ t₂ < t₁) ∧
    (∀ k t, decodeKey (encodeKey k t) = .ok (k, t)) ∧
    (∀ d rest, decodeBytes (encodeBytes d ++ rest) = .ok (d, rest)) ∧
    (∀ b d rest, decodeBytes b = .ok (d, rest) → b = encodeBytes d ++ rest) ∧
    (∀ a b, encodeBytesDesc a < encodeBytesDesc b ↔ b < a) ∧
    (∀ d rest, decodeBytesDesc (encodeBytesDesc d ++ rest) = .ok (d, rest)) ∧
    (∀ b d rest, decodeBytesDesc b = .ok (d, rest) → b = encodeBytesDesc d ++ rest) ∧
    (∀ v w, encodeUint64Desc [] v < encodeUint64Desc [] w ↔ w < v) ∧
    (∀ v rest, decodeUint64Desc (encodeUint64Desc [] v ++ rest) = .ok (v, rest)) ∧
    (∀ b v rest, decodeUint64Desc b = .ok (v, rest) → b = encodeUint64Desc [] v ++ rest) :=
  ⟨encodeKey_lt, decodeKey_encodeKey,
    encodeBytes_code.decode_append, encodeBytes_code.eq_of_decode,
    encodeBytesDesc_code.encode_lt, encodeBytesDesc_code.decode_append,
    encodeBytesDesc_code.eq_of_decode, encodeUint64Desc_code.encode_lt,
    encodeUint64Desc_code.decode_append, encodeUint64Desc_code.eq_of_decode⟩

end Mvcc
