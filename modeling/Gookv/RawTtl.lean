/-
Raw values read back until they expire.
-/
import Gookv.RawStorage

namespace RawStorage

open Txntypes StoreRestart Rocks Raftstore Proposals LastWrite List Option RawStorage

structure Written where
  value : Value
  ttl : UInt64
  putTime : UInt64
  deriving DecidableEq

inductive PutCall
  | put (now : UInt64) (key : Key) (value : Value) (ttl : Option UInt64)
  | batchPutWithTTL (now : ℕ → UInt64) (pairs : List (Key × Value)) (ttls : List UInt64)
  | putModify (now : UInt64) (key : Key) (value : Value) (ttl : Option UInt64)

def PutCall.run (cf : Option CF) (db : DB) : PutCall → Except Error DB
  | .put now key value ttl => RawStorage.put now db cf key value ttl
  | .batchPutWithTTL now pairs ttls => RawStorage.batchPutWithTTL now db cf pairs ttls
  | .putModify now key value ttl =>
    commit db (resolveCF cf) [RawStorage.putModify now cf key value ttl]

def PutCall.written (key : Key) : PutCall → Option Written
  | .put now k value ttl | .putModify now k value ttl =>
    if k = key then some ⟨value, ttl.getD 0, now⟩ else none
  | .batchPutWithTTL now pairs ttls =>
    LastWrite (fun (p, i) => if p.1 = key then some ⟨p.2, ttls.getD i 0, now i⟩ else none)
      pairs.zipIdx

def Written.raw (w : Written) : Value := encodeValueWithTTL w.putTime w.value w.ttl

open Written

def Written.Unexpired (w : Written) (now : UInt64) : Prop :=
  w.ttl = 0 ∨ now.toNat < w.putTime.toNat + w.ttl.toNat

instance (w : Written) (now : UInt64) : Decidable (w.Unexpired now) :=
  inferInstanceAs (Decidable (_ ∨ _))

/-- The pairs of a call have the value `n` times before its expiry and not at all from then on. -/
structure Written.Returned (w : Written) (key : Key) (now : ℕ → UInt64) (n : ℕ)
    (pairs : List (Key × Value)) : Prop where
  only : ∀ v, (key, v) ∈ pairs → v = w.value
  before : (∀ i, w.Unexpired (now i)) → pairs.countP (fun p => p.1 = key) = n
  after : (∀ i, ¬ w.Unexpired (now i)) → ∀ v, (key, v) ∉ pairs

structure ReadsBack (db : DB) (cf : Option CF) (key : Key) (w : Written) : Prop where
  get : ∀ now, w.putTime ≤ now →
    get now db cf key = .ok (if w.Unexpired now then some w.value else none)
  batchGet : ∀ now : ℕ → UInt64, Monotone now → w.putTime ≤ now 0 → ∀ keys, ∃ pairs,
    batchGet now db cf keys = .ok pairs ∧
      w.Returned key now (keys.count key) pairs
  scan : ∀ now : ℕ → UInt64, Monotone now → w.putTime ≤ now 0 → ∀ startKey endKey reverse,
    InScan startKey endKey reverse key → ∃ pairs,
      scan now db cf startKey endKey 0 false reverse = .ok pairs ∧
      w.Returned key now 1 pairs ∧
      ∀ limit ≠ 0, scan now db cf startKey endKey limit false reverse =
        .ok (pairs.take limit.toNat)
  getKeyTTL : w.ttl = 0 → ∀ now, w.putTime ≤ now →
    getKeyTTL now db cf key = .ok (0, false)

def Written.Unambiguous (w : Written) : Prop :=
  if w.ttl = 0 then w.value.length < ttlMetaSize ∨ w.value.getLast? ≠ some ttlFlagByte
  else w.putTime.toNat + w.ttl.toNat < 2 ^ 64

instance (w : Written) : Decidable w.Unambiguous :=
  inferInstanceAs (Decidable (if w.ttl = 0 then _ ∨ _ else _ < _))

theorem commit_eq_ok {db db' : DB} {cf : CF} {ms : List Modify} :
    commit db cf ms = .ok db' ↔ batchOps db ms = some db' := by
  unfold commit
  cases batchOps db ms <;> simp

theorem lastWrite_batchPuts (now : ℕ → UInt64) (cf : Option CF) (pairs : List (Key × Value))
    (ttls : List UInt64) (key : Key) :
    LastWrite (Modify.writeAt (resolveCF cf) key) (batchPuts now cf pairs ttls) =
      ((PutCall.batchPutWithTTL now pairs ttls).written key).map fun w => some w.raw := by
  rw [batchPuts, LastWrite.map, PutCall.written, ← LastWrite.comp]
  congr 1
  funext p
  obtain ⟨⟨k, v⟩, i⟩ := p
  show (if resolveCF cf = resolveCF cf ∧ k = key then some (some _) else none) = _
  by_cases hk : k = key <;> simp [hk, Written.raw]

theorem PutCall.get_run {c : PutCall} {cf : Option CF} {db db' : DB} {key : Key} {w : Written}
    (hrun : c.run cf db = .ok db') (hw : c.written key = some w) :
    Rocks.get db' (resolveCF cf) key = some w.raw := by
  have hsingle : ∀ {now : UInt64} {k : Key} {value : Value} {ttl : Option UInt64},
      commit db (resolveCF cf) [.put (resolveCF cf) k
        (encodeValueWithTTL now value (ttl.getD 0))] = .ok db' →
      (if k = key then some (⟨value, ttl.getD 0, now⟩ : Written) else none) = some w →
      Rocks.get db' (resolveCF cf) key = some w.raw := by
    intro now k value ttl hcommit hwritten
    obtain ⟨rfl, rfl⟩ := StepSystem.of_guard hwritten
    rw [get_batchOps (commit_eq_ok.mp hcommit)]
    simp [LastWrite.cons, Modify.writeAt, Written.raw]
  cases c with
  | put now k value ttl | putModify now k value ttl => exact hsingle hrun hw
  | batchPutWithTTL now pairs ttls =>
    rw [get_batchOps (commit_eq_ok.mp hrun), lastWrite_batchPuts, hw]
    rfl

theorem get_applyModifies_of_none {db : DB} {ms : List Modify} {cf : CF} {key : Key}
    (h : ∀ m ∈ ms, m.writeAt cf key = none) :
    Rocks.get (Rocks.applyModifies db ms) cf key = Rocks.get db cf key := by
  rw [Rocks.applyModifies]
  cases hops : batchOps db ms with
  | none => rfl
  | some db' =>
    rw [getD_some, get_batchOps hops, eq_none_iff.mpr h]
    rfl

theorem Written.unambiguous_iff (w : Written) : w.Unambiguous ↔ ∀ now, w.putTime ≤ now →
      visible now w.raw = if w.Unexpired now then some w.value else none := by
  unfold Unambiguous raw encodeValueWithTTL
  by_cases httl : w.ttl = 0
  · have hlive : ∀ now, w.Unexpired now := fun now => .inl httl
    rw [if_pos httl, if_pos httl]
    constructor
    · intro hplain now _
      rw [visible_of_plain hplain, if_pos (hlive now)]
    · intro h
      by_contra hflag
      refine visible_ne_self hflag w.putTime ?_
      rw [h w.putTime le_rfl, if_pos (hlive _)]
  · rw [if_neg httl, if_neg httl]
    have hsum : (w.putTime + w.ttl).toNat = (w.putTime.toNat + w.ttl.toNat) % 2 ^ 64 :=
      UInt64.toNat_add w.putTime w.ttl
    have hput := w.putTime.toNat_lt
    have hlt := w.ttl.toNat_lt
    have hlive : ∀ now : UInt64, w.Unexpired now ↔ now.toNat < w.putTime.toNat + w.ttl.toNat :=
      fun now => or_iff_right httl
    simp only [visible_expiry, hlive, UInt64.le_iff_toNat_le, hsum]
    constructor
    · intro hfits now _
      rw [Nat.mod_eq_of_lt hfits]
      by_cases hexp : w.putTime.toNat + w.ttl.toNat ≤ now.toNat
      · rw [if_pos hexp, if_neg (by omega)]
      · rw [if_neg hexp, if_pos (by omega)]
    · intro h
      by_contra hwrap
      -- the sum wraps to a time before the write
      have hpos : 0 < w.ttl.toNat := by
        rw [Nat.pos_iff_ne_zero]
        exact fun hzero => httl (UInt64.toNat_inj.mp hzero)
      have hnow := h w.putTime le_rfl
      rw [if_pos (by omega), if_pos (by omega)] at hnow
      cases hnow

/-! ### The reads -/

variable {db : DB} {cf : Option CF} {key : Key} {raw : Value} {w : Written}

theorem isSome_of_get {cf : CF} (h : Rocks.get db cf key = some raw) :
    (cfPrefix cf).isSome = true := by
  rw [Rocks.get] at h
  obtain ⟨b, hb, -⟩ := bind_eq_some_iff.mp h
  rw [hb]
  rfl

theorem engineGet_of_isSome {cf : CF} (h : (cfPrefix cf).isSome = true) (key : Key) :
    engineGet db cf key = .ok (Rocks.get db cf key) :=
  if_pos h

theorem get_of_get (h : Rocks.get db (resolveCF cf) key = some raw) (now : UInt64) :
    get now db cf key = .ok (visible now raw) := by
  rw [get, engineGet_of_isSome (isSome_of_get h), h]
  rfl

theorem Written.returned_of_visible {now : ℕ → UInt64} {n : ℕ} {pairs : List (Key × Value)}
    (hw : ∀ i, visible (now i) raw = if w.Unexpired (now i) then some w.value else none)
    (hmem : ∀ v, (key, v) ∈ pairs → ∃ i, visible (now i) raw = some v)
    (hcount : (∀ i, visible (now i) raw = some w.value) →
      pairs.countP (fun p => p.1 = key) = n) : w.Returned key now n pairs where
  only v hv := by
    obtain ⟨i, hi⟩ := hmem v hv
    rw [hw i] at hi
    exact (StepSystem.of_guard hi).2.symm
  before hlive := hcount fun i => by rw [hw i, if_pos (hlive i)]
  after hdead v hv := by
    obtain ⟨i, hi⟩ := hmem v hv
    rw [hw i, if_neg (hdead i)] at hi
    cases hi

theorem batchGet_spec (h : Rocks.get db (resolveCF cf) key = some raw) (now : ℕ → UInt64)
    (keys : List Key) : ∃ pairs, batchGet now db cf keys = .ok pairs ∧
      (∀ v, (key, v) ∈ pairs → ∃ i, visible (now i) raw = some v) ∧
      ∀ value, (∀ i, visible (now i) raw = some value) →
        pairs.countP (fun p => p.1 = key) = keys.count key := by
  induction keys generalizing now with
  | nil => exact ⟨[], rfl, by simp, by simp⟩
  | cons k keys ih =>
    obtain ⟨pairs, hpairs, hmem, hcount⟩ := ih fun i => now (i + 1)
    rw [batchGet, engineGet_of_isSome (isSome_of_get h) k]
    simp only [hpairs]
    refine ⟨_, rfl, ?_, ?_⟩
    · intro v hv
      cases hsees : (Rocks.get db (resolveCF cf) k).bind (visible (now 0)) with
      | none =>
        rw [hsees] at hv
        obtain ⟨i, hi⟩ := hmem v hv
        exact ⟨i + 1, hi⟩
      | some u =>
        rw [hsees, mem_cons] at hv
        rcases hv with heq | hv
        · obtain ⟨rfl, rfl⟩ := Prod.mk.inj heq
          rw [h, bind_some] at hsees
          exact ⟨0, hsees⟩
        · obtain ⟨i, hi⟩ := hmem v hv
          exact ⟨i + 1, hi⟩
    · intro value hvalue
      have hrest := hcount value fun i => hvalue (i + 1)
      by_cases hk : k = key
      · subst hk
        rw [h, bind_some, hvalue 0]
        simp [hrest]
      · cases (Rocks.get db (resolveCF cf) k).bind (visible (now 0)) with
        | none | some u => simpa [hk] using hrest

theorem scan_spec (h : Rocks.get db (resolveCF cf) key = some raw) (now : ℕ → UInt64)
    {startKey : Option Key} {endKey : Key} {reverse : Bool}
    (hin : InScan startKey endKey reverse key) :
    ∃ pairs, (∀ limit, scan now db cf startKey endKey limit false reverse =
        .ok (upTo limit 0 pairs)) ∧
      (∀ v, (key, v) ∈ pairs → ∃ i, visible (now i) raw = some v) ∧
      ∀ value, (∀ i, visible (now i) raw = some value) →
        pairs.countP (fun p => p.1 = key) = 1 := by
  obtain ⟨records, hrecords⟩ : ∃ records,
      visited db (resolveCF cf) startKey endKey reverse = some records :=
    visited_isSome (isSome_of_get h) startKey endKey reverse
  have hraw : ∀ raw', (key, raw') ∈ records ↔ raw' = raw := by
    intro raw'
    rw [mem_visited hrecords, h, and_iff_left hin, some_inj, eq_comm]
  refine ⟨shown now records, ?_, ?_, ?_⟩
  · intro limit
    rw [scan_eq hrecords, map_keyed_false]
  · intro v hv
    obtain ⟨raw', i, hmem, hsees⟩ := mem_shown hv
    rw [(hraw raw').mp hmem] at hsees
    exact ⟨i, hsees⟩
  · intro value hvalue
    rw [countP_shown]
    · have hmem : key ∈ records.map Prod.fst :=
        mem_map.mpr ⟨(key, raw), (hraw raw).mpr rfl, rfl⟩
      have hone := count_eq_one_of_mem (nodup_visited hrecords) hmem
      rw [count, countP_map] at hone
      rw [← hone]
      apply countP_congr
      intro p _
      simp
    · intro raw' hmem i
      rw [(hraw raw').mp hmem, hvalue i]
      rfl

theorem readsBack_iff_of_get (h : Rocks.get db (resolveCF cf) key = some w.raw) :
    ReadsBack db cf key w ↔ w.Unambiguous := by
  rw [w.unambiguous_iff]
  constructor
  · intro hreads now hnow
    have hget := hreads.get now hnow
    rw [get_of_get h] at hget
    exact Except.ok.inj hget
  · intro hsees
    have hclock : ∀ now : ℕ → UInt64, Monotone now → w.putTime ≤ now 0 → ∀ i,
        visible (now i) w.raw = if w.Unexpired (now i) then some w.value else none :=
      fun now hmono hstart i => hsees (now i) (hstart.trans (hmono (Nat.zero_le i)))
    refine ⟨?_, ?_, ?_, ?_⟩
    · intro now hnow
      rw [get_of_get h, hsees now hnow]
    · intro now hmono hstart keys
      obtain ⟨pairs, hpairs, hmem, hcount⟩ := batchGet_spec h now keys
      exact ⟨pairs, hpairs, returned_of_visible (hclock now hmono hstart) hmem
        (hcount w.value)⟩
    · intro now hmono hstart startKey endKey reverse hin
      obtain ⟨pairs, hpairs, hmem, hcount⟩ := scan_spec h now hin
      refine ⟨pairs, hpairs 0, returned_of_visible (hclock now hmono hstart) hmem
        (hcount w.value), ?_⟩
      intro limit hlimit
      rw [hpairs limit, upTo, if_neg hlimit]
      rfl
    · intro httl now hnow
      have hplain := w.unambiguous_iff.mpr hsees
      rw [Unambiguous, if_pos httl] at hplain
      have hdecode : decodeValueTTL now w.raw = ⟨w.value, 0, false, false⟩ := by
        rw [raw, encodeValueWithTTL, if_pos httl, decodeValueTTL, if_pos hplain]
      rw [getKeyTTL, engineGet_of_isSome (isSome_of_get h), h]
      simp only [Except.map, hdecode]
      rfl

/-- **A raw value reads back until it expires exactly when it is unambiguous**, whatever is
written to other keys in the meantime. -/
theorem readsBack_iff {c : PutCall} {db' : DB} (hrun : c.run cf db = .ok db')
    (hw : c.written key = some w) {ms : List Modify}
    (hms : ∀ m ∈ ms, m.writeAt (resolveCF cf) key = none) :
    ReadsBack (Rocks.applyModifies db' ms) cf key w ↔ w.Unambiguous := by
  apply readsBack_iff_of_get
  rw [get_applyModifies_of_none hms]
  exact PutCall.get_run hrun hw

theorem readsBack_five_seconds : ∃ db',
    (PutCall.put 10 [0x61] [0x78] (some 5)).run none Table.empty = .ok db' ∧
      ReadsBack (Rocks.applyModifies db' []) none [0x61] ⟨[0x78], 5, 10⟩ :=
  have hrun : (PutCall.put 10 [0x61] [0x78] (some 5)).run none Table.empty = .ok _ := rfl
  ⟨_, hrun, (readsBack_iff hrun rfl (by simp)).mpr (by decide)⟩

/-- **A value that ends with the flag byte expires at once**: eight zeros and a 1, written
without expiry, are read as an empty value that expired at the time 0.  With a time to
live that makes the sum wrap, any value is gone as soon as it is written. -/
theorem plain_value_expires :
    (∃ db', (PutCall.put 10 [0x61] [0, 0, 0, 0, 0, 0, 0, 0, 1] none).run none Table.empty =
        .ok db' ∧
      get 10 db' none [0x61] = .ok none ∧
      ¬ ReadsBack db' none [0x61] ⟨[0, 0, 0, 0, 0, 0, 0, 0, 1], 0, 10⟩) ∧
    ∃ db', (PutCall.put 10 [0x61] [0x78] (some 0xFFFFFFFFFFFFFFFF)).run none Table.empty =
        .ok db' ∧
      get 10 db' none [0x61] = .ok none ∧
      ¬ ReadsBack db' none [0x61] ⟨[0x78], 0xFFFFFFFFFFFFFFFF, 10⟩ := by
  refine ⟨⟨_, rfl, by decide, ?_⟩, ⟨_, rfl, by decide, ?_⟩⟩
  · rw [readsBack_iff_of_get (by rfl)]
    decide
  · rw [readsBack_iff_of_get (by rfl)]
    decide

end RawStorage
