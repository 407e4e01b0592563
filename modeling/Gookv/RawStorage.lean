/-
The raw interface of a store: `internal/server/raw_storage.go`.
-/
import Gookv.SnapshotData
import Gookv.Modifies

namespace RawStorage

open Txntypes StoreRestart Rocks Raftstore Proposals List Option

inductive Error
  | cfNotFound (cf : CF)
  deriving DecidableEq

def ttlMetaSize : ℕ := 9

structure Decoded where
  value : Value
  ttl : UInt64
  expired : Bool
  hasTTL : Bool
  deriving DecidableEq

def decodeValueTTL (now : UInt64) (raw : Value) : Decoded :=
  if raw.length < ttlMetaSize ∨ raw.getLast? ≠ some ttlFlagByte then ⟨raw, 0, false, false⟩
  else
    let expireTS := UInt64.ofNat (bigEndian (raw.drop (raw.length - ttlMetaSize)))
    let userValue := raw.take (raw.length - ttlMetaSize)
    if expireTS ≤ now then ⟨userValue, 0, true, true⟩
    else ⟨userValue, expireTS - now, false, true⟩

def visible (now : UInt64) (raw : Value) : Option Value :=
  let d := decodeValueTTL now raw
  if d.expired then none else some d.value

def engineGet (db : DB) (cf : CF) (key : Key) : Except Error (Option Value) :=
  if (cfPrefix cf).isSome then .ok (Rocks.get db cf key) else .error (.cfNotFound cf)

def commit (db : DB) (cf : CF) (modifies : List Modify) : Except Error DB :=
  match batchOps db modifies with
  | none => .error (.cfNotFound cf)
  | some db' => .ok db'

/-! ### The operations -/

def get (now : UInt64) (db : DB) (cf : Option CF) (key : Key) : Except Error (Option Value) :=
  (engineGet db (resolveCF cf) key).map fun raw => raw.bind (visible now)

def put (now : UInt64) (db : DB) (cf : Option CF) (key : Key) (value : Value)
    (ttl : Option UInt64) : Except Error DB :=
  commit db (resolveCF cf)
    [.put (resolveCF cf) key (encodeValueWithTTL now value (ttl.getD 0))]

def delete (db : DB) (cf : Option CF) (key : Key) : Except Error DB :=
  commit db (resolveCF cf) [.delete (resolveCF cf) key]

def batchGet (now : ℕ → UInt64) (snap : DB) (cf : Option CF) :
    List Key → Except Error (List (Key × Value))
  | [] => .ok []
  | key :: keys =>
    match engineGet snap (resolveCF cf) key with
    | .error e => .error e
    | .ok raw =>
      (batchGet (fun i => now (i + 1)) snap cf keys).map fun pairs =>
        match raw.bind (visible (now 0)) with
        | none => pairs
        | some value => (key, value) :: pairs

def batchPuts (now : ℕ → UInt64) (cf : Option CF) (pairs : List (Key × Value))
    (ttls : List UInt64) : List Modify :=
  pairs.zipIdx.map fun (p, i) =>
    .put (resolveCF cf) p.1 (encodeValueWithTTL (now i) p.2 (ttls.getD i 0))

def batchPutWithTTL (now : ℕ → UInt64) (db : DB) (cf : Option CF) (pairs : List (Key × Value))
    (ttls : List UInt64) : Except Error DB :=
  commit db (resolveCF cf) (batchPuts now cf pairs ttls)

def batchDelete (db : DB) (cf : Option CF) (keys : List Key) : Except Error DB :=
  commit db (resolveCF cf) (keys.map fun key => .delete (resolveCF cf) key)

def deleteRange (db : DB) (cf : Option CF) (startKey endKey : Key) : Except Error DB :=
  commit db (resolveCF cf) [.deleteRange (resolveCF cf) startKey endKey]

def scanLoop (limit : UInt32) (keyOnly : Bool) :
    (ℕ → UInt64) → List (Key × Value) → List (Key × Value) → List (Key × Value)
  | _, [], pairs => pairs
  | now, (key, raw) :: rest, pairs =>
    if limit = 0 ∨ UInt32.ofNat pairs.length < limit then
      let d := decodeValueTTL (now 0) raw
      let pairs :=
        if d.expired then pairs else pairs ++ [(key, if keyOnly then [] else d.value)]
      scanLoop limit keyOnly (fun i => now (i + 1)) rest pairs
    else pairs

/-- The records a scan visits; a reverse one starts below `startKey`. -/
def visited (db : DB) (cf : CF) (startKey : Option Key) (endKey : Key) (reverse : Bool) :
    Option (List (Key × Value)) :=
  if reverse then (newIterator db cf (bound endKey) startKey).map List.reverse
  else newIterator db cf startKey (bound endKey)

def scan (now : ℕ → UInt64) (db : DB) (cf : Option CF) (startKey : Option Key) (endKey : Key)
    (limit : UInt32) (keyOnly reverse : Bool) : Except Error (List (Key × Value)) :=
  match visited db (resolveCF cf) startKey endKey reverse with
  | none => .error (.cfNotFound (resolveCF cf))
  | some records => .ok (scanLoop limit keyOnly now records [])

def getKeyTTL (now : UInt64) (db : DB) (cf : Option CF) (key : Key) :
    Except Error (UInt64 × Bool) :=
  (engineGet db (resolveCF cf) key).map fun
    | none => (0, true)
    | some raw =>
      let d := decodeValueTTL now raw
      if d.expired then (0, true) else if d.hasTTL then (d.ttl, false) else (0, false)

structure SwapResult where
  succeed : Bool
  prevNotExist : Bool
  prevValue : Option Value
  deriving DecidableEq

def swapMatches (current : Option Value) (prevValue : Value) (prevNotExist : Bool) : Bool :=
  if prevNotExist then current.isNone else current == some prevValue

def swapModify (now : UInt64) (cf : Option CF) (key : Key) (value : Value) (isDelete : Bool)
    (ttl : UInt64) : Modify :=
  if isDelete then .delete (resolveCF cf) key
  else .put (resolveCF cf) key (encodeValueWithTTL now value ttl)

/-- `CompareAndSwap`, undisturbed; the clock is read twice. -/
def compareAndSwap (now now' : UInt64) (db : DB) (cf : Option CF) (key : Key)
    (value prevValue : Value) (prevNotExist isDelete : Bool) (ttl : UInt64) :
    Except Error (SwapResult × DB) :=
  match get now db cf key with
  | .error e => .error e
  | .ok current =>
    if swapMatches current prevValue prevNotExist then
      (commit db (resolveCF cf) [swapModify now' cf key value isDelete ttl]).map fun db' =>
        (⟨true, current.isNone, current⟩, db')
    else .ok (⟨false, current.isNone, current⟩, db)

theorem visible_of_plain {raw : Value}
    (h : raw.length < ttlMetaSize ∨ raw.getLast? ≠ some ttlFlagByte) (now : UInt64) :
    visible now raw = some raw := by
  rw [visible, decodeValueTTL, if_pos h]
  rfl

theorem decodeValueTTL_expiry (now expireTS : UInt64) (value : Value) :
    decodeValueTTL now (value ++ putUint64 expireTS ++ [ttlFlagByte]) =
      if expireTS ≤ now then ⟨value, 0, true, true⟩
      else ⟨value, expireTS - now, false, true⟩ := by
  have hlen : (value ++ putUint64 expireTS ++ [ttlFlagByte]).length = value.length + 9 := by
    simp [putUint64]
  have hsize : (value ++ putUint64 expireTS ++ [ttlFlagByte]).length - ttlMetaSize =
      value.length := by
    rw [hlen]
    exact Nat.add_sub_cancel ..
  have hlong : ¬ (value ++ putUint64 expireTS ++ [ttlFlagByte]).length < ttlMetaSize := by
    rw [hlen]
    exact Nat.not_lt.mpr (Nat.le_add_left 9 _)
  have hts : UInt64.ofNat (bigEndian (putUint64 expireTS ++ [ttlFlagByte])) = expireTS := by
    rw [bigEndian_putUint64, UInt64.ofNat_toNat]
  rw [decodeValueTTL, if_neg (by simpa using hlong)]
  dsimp only
  rw [hsize, append_assoc, drop_left, take_left, hts]

theorem visible_expiry (now expireTS : UInt64) (value : Value) :
    visible now (value ++ putUint64 expireTS ++ [ttlFlagByte]) =
      if expireTS ≤ now then none else some value := by
  rw [visible, decodeValueTTL_expiry]
  by_cases h : expireTS ≤ now
  · rw [if_pos h, if_pos h]
    rfl
  · rw [if_neg h, if_neg h]
    rfl

variable {raw : Value} {key : Key} {now : ℕ → UInt64} {records : List (Key × Value)}

theorem visible_ne_self
    (h : ¬ (raw.length < ttlMetaSize ∨ raw.getLast? ≠ some ttlFlagByte)) (now : UInt64) :
    visible now raw ≠ some raw := by
  rw [visible, decodeValueTTL, if_neg h]
  dsimp only
  split
  · simp
  · intro heq
    have hlen := congrArg length (some.inj heq)
    have hlong : ¬ raw.length < 9 := fun hlt => h (.inl hlt)
    rw [length_take] at hlen
    simp only [ttlMetaSize] at hlen
    omega

/-! ### The loops -/

def shown : (ℕ → UInt64) → List (Key × Value) → List (Key × Value)
  | _, [] => []
  | now, (key, raw) :: rest =>
    match visible (now 0) raw with
    | none => shown (fun i => now (i + 1)) rest
    | some value => (key, value) :: shown (fun i => now (i + 1)) rest

theorem shown_cons (now : ℕ → UInt64) (key : Key) (raw : Value) (rest : List (Key × Value)) :
    shown now ((key, raw) :: rest) =
      ((visible (now 0) raw).map fun value => (key, value)).toList ++
        shown (fun i => now (i + 1)) rest := by
  rw [shown]
  cases visible (now 0) raw <;> rfl

theorem mem_shown {value : Value}
    (h : (key, value) ∈ shown now records) :
    ∃ raw i, (key, raw) ∈ records ∧ visible (now i) raw = some value := by
  induction records generalizing now with
  | nil => cases h
  | cons p rest ih =>
    obtain ⟨k, raw⟩ := p
    rw [shown_cons, mem_append] at h
    rcases h with h | h
    · obtain ⟨v, hv, heq⟩ := map_eq_some_iff.mp (mem_toList.mp h)
      obtain ⟨rfl, rfl⟩ := Prod.mk.inj heq
      exact ⟨raw, 0, mem_cons_self, hv⟩
    · obtain ⟨raw', i, hmem, hv⟩ := ih h
      exact ⟨raw', i + 1, mem_cons_of_mem _ hmem, hv⟩

theorem countP_shown (h : ∀ raw, (key, raw) ∈ records → ∀ i, (visible (now i) raw).isSome = true) :
    (shown now records).countP (fun p => p.1 = key) = records.countP (fun p => p.1 = key) := by
  induction records generalizing now with
  | nil => rfl
  | cons p rest ih =>
    obtain ⟨k, raw⟩ := p
    have hlater : ∀ raw', (key, raw') ∈ rest → ∀ i,
        (visible ((fun i => now (i + 1)) i) raw').isSome = true :=
      fun raw' hmem i => h raw' (mem_cons_of_mem _ hmem) (i + 1)
    have hrest := ih hlater
    rw [shown_cons, countP_append, hrest, countP_cons, add_comm]
    congr 1
    by_cases hk : k = key
    · subst hk
      obtain ⟨v, hv⟩ := isSome_iff_exists.mp (h raw mem_cons_self 0)
      simp [hv]
    · cases visible (now 0) raw <;> simp [hk]

def keyed (keyOnly : Bool) (p : Key × Value) : Key × Value := (p.1, if keyOnly then [] else p.2)

theorem map_keyed_false (l : List (Key × Value)) : l.map (keyed false) = l :=
  map_id' l

def upTo {α : Type} (limit : UInt32) (n : ℕ) (l : List α) : List α :=
  if limit = 0 then l else l.take (limit.toNat - n)

theorem ofNat_lt_limit {n : ℕ} {limit : UInt32} (h : n ≤ limit.toNat) :
    UInt32.ofNat n < limit ↔ n < limit.toNat := by
  have hlt := limit.toNat_lt
  rw [UInt32.lt_iff_toNat_lt, UInt32.toNat_ofNat', Nat.mod_eq_of_lt (by omega)]

theorem scanLoop_eq (limit : UInt32) (keyOnly : Bool) (now : ℕ → UInt64)
    (records pairs : List (Key × Value)) (h : limit = 0 ∨ pairs.length ≤ limit.toNat) :
    scanLoop limit keyOnly now records pairs =
      pairs ++ upTo limit pairs.length ((shown now records).map (keyed keyOnly)) := by
  induction records generalizing now pairs with
  | nil => simp [scanLoop, shown, upTo]
  | cons p rest ih =>
    obtain ⟨key, raw⟩ := p
    rw [scanLoop]
    by_cases hmore : limit = 0 ∨ UInt32.ofNat pairs.length < limit
    · rw [if_pos hmore, shown]
      unfold visible
      by_cases hexp : (decodeValueTTL (now 0) raw).expired = true
      · simp only [hexp, if_true]
        exact ih _ _ h
      · have hlt : limit = 0 ∨ pairs.length < limit.toNat := by
          rcases h with h | h
          · exact .inl h
          · exact hmore.imp_right (ofNat_lt_limit h).mp
        simp only [Bool.not_eq_true] at hexp
        simp only [hexp, Bool.false_eq_true, if_false]
        rw [ih]
        · unfold upTo
          by_cases hzero : limit = 0
          · simp [hzero, keyed]
          · have hpos : limit.toNat - pairs.length = limit.toNat - (pairs.length + 1) + 1 := by
              have := hlt.resolve_left hzero
              omega
            rw [if_neg hzero, if_neg hzero, length_append, length_singleton, hpos,
              map_cons, take_succ_cons, append_assoc]
            rfl
        · rw [length_append, length_singleton]
          exact hlt
    · -- the limit is reached
      rw [not_or] at hmore
      have hle := h.resolve_left hmore.1
      have hge : limit.toNat ≤ pairs.length := not_lt.mp fun hlt =>
        hmore.2 ((ofNat_lt_limit hle).mpr hlt)
      rw [if_neg (by simpa using hmore), upTo, if_neg hmore.1, Nat.sub_eq_zero_of_le hge,
        take_zero, append_nil]

theorem scan_eq {db : DB} {cf : Option CF} {startKey : Option Key} {endKey : Key} {reverse : Bool}
    (h : visited db (resolveCF cf) startKey endKey reverse = some records) (now : ℕ → UInt64)
    (limit : UInt32) (keyOnly : Bool) : scan now db cf startKey endKey limit keyOnly reverse =
      .ok (upTo limit 0 ((shown now records).map (keyed keyOnly))) := by
  rw [scan, h]
  dsimp only
  rw [scanLoop_eq limit keyOnly now records [] (.inr (Nat.zero_le _))]
  rfl

def InScan (startKey : Option Key) (endKey : Key) (reverse : Bool) (key : Key) : Prop :=
  if reverse then (∀ lo ∈ bound endKey, lo ≤ key) ∧ ∀ hi ∈ startKey, key < hi
  else (∀ lo ∈ startKey, lo ≤ key) ∧ ∀ hi ∈ bound endKey, key < hi

section
variable {db : DB} {cf : CF} {startKey : Option Key} {endKey : Key} {reverse : Bool}
  {records : List (Key × Value)}

theorem visited_isSome (h : (cfPrefix cf).isSome = true) (startKey : Option Key) (endKey : Key)
    (reverse : Bool) : ∃ records, visited db cf startKey endKey reverse = some records := by
  rw [← isSome_iff_exists]
  cases reverse <;> simp [visited, newIterator, h]

theorem mem_visited (h : visited db cf startKey endKey reverse = some records) (key : Key)
    (raw : Value) :
    (key, raw) ∈ records ↔ Rocks.get db cf key = some raw ∧ InScan startKey endKey reverse key := by
  cases reverse with
  | false => exact mem_newIterator h key raw
  | true =>
    obtain ⟨l, hl, rfl⟩ := map_eq_some_iff.mp h
    rw [mem_reverse]
    exact mem_newIterator hl key raw

theorem nodup_visited (h : visited db cf startKey endKey reverse = some records) :
    (records.map Prod.fst).Nodup := by
  have hnodup : ∀ {lo hi : Option Key} {l : List (Key × Value)},
      newIterator db cf lo hi = some l → (l.map Prod.fst).Nodup := by
    intro lo hi l hl
    exact pairwise_map.mpr ((sorted_newIterator hl).imp fun hlt => hlt.ne)
  cases reverse with
  | false => exact hnodup h
  | true =>
    obtain ⟨l, hl, rfl⟩ := map_eq_some_iff.mp h
    rw [map_reverse, nodup_reverse]
    exact hnodup hl

end

end RawStorage
