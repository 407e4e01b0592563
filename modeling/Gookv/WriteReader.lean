/-
The reads of write records: `SeekWrite` and `GetWrite` of `internal/storage/mvcc/reader.go`,
on the bytes of CF_WRITE.
-/
import Gookv.Scanner
import Gookv.TxnRecords

namespace MvccReader

open Txntypes Codec Mvcc List Versions WriteType

def isPut (w : WriteRecord) : Bool := w.writeType == WriteType.put.code

def isDelete (w : WriteRecord) : Bool := w.writeType == WriteType.delete.code

def isData (w : WriteRecord) : Bool := isPut w || isDelete w

def isLockOrRollback (w : WriteRecord) : Bool :=
  w.writeType == WriteType.lock.code || w.writeType == WriteType.rollback.code

structure Version where
  key : Key
  commitTS : TimeStamp
  write : WriteRecord
  deriving DecidableEq

namespace Version

def Before (a b : Version) : Prop := a.key < b.key ∨ a.key = b.key ∧ b.commitTS < a.commitTS

instance : DecidableRel Before := fun a b =>
  inferInstanceAs (Decidable (a.key < b.key ∨ a.key = b.key ∧ b.commitTS < a.commitTS))

def entry (v : Version) : List UInt8 × List UInt8 := (encodeKey v.key v.commitTS, v.write.marshal)

end Version

structure Content where
  records : List Version
  sorted : records.Pairwise Version.Before
  expressible : ∀ v ∈ records, v.write.Expressible
  typed : ∀ v ∈ records, isData v.write = true ∨ isLockOrRollback v.write = true

def Content.entries (cf : Content) : List (List UInt8 × List UInt8) :=
  cf.records.map Version.entry

open Content

inductive ReadError
  | key (e : Codec.Error)
  | record (e : RecordError)
  deriving DecidableEq

def truncateToUserKey (encodedKey : List UInt8) : List UInt8 :=
  if encodedKey.length ≤ 8 then encodedKey else encodedKey.take (encodedKey.length - 8)

abbrev Iterator := Cursor (List UInt8 × List UInt8)

def newIterator (cf : Content) : Iterator := ⟨cf.entries, 0⟩

def seek (iter : Iterator) (target : List UInt8) : Iterator := iter.seek fun e => target ≤ e.1

def current (key : Key) (iter : Iterator) : Except ReadError (Option (WriteRecord × TimeStamp)) :=
  match iter.cur with
  | none => .ok none
  | some (foundKey, value) =>
    if truncateToUserKey foundKey ≠ encodeLockKey key then .ok none
    else
      match decodeKey foundKey with
      | .error e => .error (.key e)
      | .ok (_, commitTS) =>
        match unmarshalWrite value with
        | .error e => .error (.record e)
        | .ok write => .ok (some (write, commitTS))

def seekBound : UInt64 := 32

/-- The loop of `GetWrite`; without `jumps` every record is passed by a step. -/
def getWriteLoop (jumps : Bool) (key : Key) :
    ℕ → Iterator → Option (Except ReadError (Option (WriteRecord × TimeStamp)))
  | 0, _ => none
  | fuel + 1, iter =>
    match current key iter with
    | .error e => some (.error e)
    | .ok none => some (.ok none)
    | .ok (some (write, commitTS)) =>
      if write.writeType = WriteType.put.code then some (.ok (some (write, commitTS)))
      else if write.writeType = WriteType.delete.code then some (.ok none)
      else if write.writeType = WriteType.lock.code ∨ write.writeType = WriteType.rollback.code then
        if jumps ∧ seekBound ≤ write.lastChange.estimatedVersions ∧ write.lastChange.ts ≠ 0 then
          getWriteLoop jumps key fuel (seek iter (encodeKey key write.lastChange.ts))
        else getWriteLoop jumps key fuel iter.next
      else some (.ok none)

def getWrite (cf : Content) (jumps : Bool) (key : Key) (ts : TimeStamp) (fuel : ℕ) :
    Option (Except ReadError (Option (WriteRecord × TimeStamp))) :=
  getWriteLoop jumps key fuel (seek (newIterator cf) (encodeKey key ts))

variable {q : TimeStamp × WriteRecord}

namespace Content

variable {cf : Content} {key : Key}

theorem keys_le (cf : Content) : cf.records.Pairwise fun a b => a.key ≤ b.key := by
  refine cf.sorted.imp fun h => ?_
  rcases h with h | h
  · exact h.le
  · exact h.1.le

def chain (cf : Content) (key : Key) : Versions TimeStamp WriteRecord where
  entries := (cf.records.filter fun v => v.key = key).map fun v => (v.commitTS, v.write)
  sorted := by
    rw [List.pairwise_map]
    refine List.Pairwise.imp_of_mem (fun {a b} ha hb hab => ?_) (cf.sorted.filter _)
    have hkey : a.key = b.key := by
      simp only [List.mem_filter, decide_eq_true_eq] at ha hb
      exact ha.2.trans hb.2.symm
    rcases hab with hlt | hlt
    · exact absurd hlt (hkey ▸ lt_irrefl _)
    · exact hlt.2

theorem mem_chain : q ∈ (cf.chain key).entries ↔ ⟨key, q.1, q.2⟩ ∈ cf.records := by
  simp only [chain, mem_map, mem_filter, decide_eq_true_eq]
  constructor
  · rintro ⟨v, ⟨hv, rfl⟩, rfl⟩
    exact hv
  · intro h
    exact ⟨_, ⟨h, rfl⟩, rfl⟩

theorem length_chain_le (cf : Content) (key : Key) :
    (cf.chain key).entries.length ≤ cf.records.length := by
  rw [chain, length_map]
  exact length_filter_le _ _

end Content

def block (key : Key) (l : List (TimeStamp × WriteRecord)) : List (List UInt8 × List UInt8) :=
  l.map fun q => Version.entry ⟨key, q.1, q.2⟩

theorem block_append (key : Key) (l l' : List (TimeStamp × WriteRecord)) :
    block key (l ++ l') = block key l ++ block key l' := List.map_append

def Content.below (cf : Content) (key : Key) : List (List UInt8 × List UInt8) :=
  (cf.records.filter fun v => v.key < key).map Version.entry

def Content.above (cf : Content) (key : Key) : List (List UInt8 × List UInt8) :=
  (cf.records.filter fun v => key < v.key).map Version.entry

theorem Content.entries_eq (cf : Content) (key : Key) :
    cf.entries = cf.below key ++ block key (cf.chain key).entries ++ cf.above key := by
  have hsplit : cf.records = cf.records.filter (fun v => v.key < key) ++
      cf.records.filter (fun v => v.key = key) ++ cf.records.filter fun v => key < v.key := by
    convert Cursor.eq_filter_blocks cf.keys_le key
  have hown : (cf.records.filter fun v => v.key = key).map Version.entry =
      block key (cf.chain key).entries := by
    rw [block, chain, map_map]
    refine map_congr_left fun v hv => ?_
    have hkey : v.key = key := by simpa using (mem_filter.mp hv).2
    rw [← hkey]
    rfl
  calc cf.entries = cf.records.map Version.entry := rfl
    _ = _ := by rw [hsplit]
    _ = _ := by
      rw [map_append, map_append, hown]
      rfl

theorem encodeLockKey_injective : Function.Injective encodeLockKey := by
  intro k k' h
  have hdecode := decodeKey_encodeLockKey k
  rw [h, decodeKey_encodeLockKey k'] at hdecode
  exact (congrArg Prod.fst (Except.ok.inj hdecode)).symm

theorem truncateToUserKey_encodeKey (key : Key) (ts : TimeStamp) :
    truncateToUserKey (encodeKey key ts) = encodeLockKey key := by
  have hlen : (encodeKey key ts).length = (encodeLockKey key).length + 8 := length_append
  have hpos : 0 < (encodeLockKey key).length := length_pos_iff.mpr (encodeBytes_ne_nil key)
  rw [truncateToUserKey, if_neg (by omega), hlen, Nat.add_sub_cancel]
  exact take_left

theorem current_of_cur {key : Key} {iter : Iterator} {v : Version} (hv : v.write.Expressible)
    (h : iter.cur = some v.entry) : current key iter =
      .ok (if v.key = key then some (v.write.normalize, v.commitTS) else none) := by
  have hcut : truncateToUserKey v.entry.1 = encodeLockKey v.key :=
    truncateToUserKey_encodeKey v.key v.commitTS
  have hkey : decodeKey v.entry.1 = .ok (v.key, v.commitTS) :=
    decodeKey_encodeKey v.key v.commitTS
  have hvalue : unmarshalWrite v.entry.2 = .ok v.write.normalize := unmarshalWrite_marshal hv
  rw [current, h]
  dsimp only
  rw [hcut, hkey, hvalue]
  by_cases heq : v.key = key
  · rw [if_pos heq, if_neg (by simp [heq])]
  · have hne : encodeLockKey v.key ≠ encodeLockKey key := fun h => heq (encodeLockKey_injective h)
    rw [if_neg heq, if_pos hne]

/-! ### What the loop finds -/

def answer (q : TimeStamp × WriteRecord) : Option (WriteRecord × TimeStamp) :=
  if q.2.writeType = WriteType.put.code then some (q.2.normalize, q.1) else none

def JumpsSound (chain : Versions TimeStamp WriteRecord) : Prop :=
  ∀ q ∈ chain.entries, isData q.2 = false →
    seekBound ≤ q.2.lastChange.estimatedVersions → q.2.lastChange.ts ≠ 0 →
    q.2.lastChange.ts < q.1 ∧
      ∀ r ∈ chain.entries, isData r.2 = true → r.1 < q.1 → r.1 ≤ q.2.lastChange.ts

section

variable {cf : Content} {key : Key} {iter : Iterator}

theorem at_seek_key (hentries : iter.entries = cf.entries) (ts : TimeStamp) :
    (seek iter (encodeKey key ts)).At
      (cf.below key ++ block key ((cf.chain key).entries.takeWhile fun q => ts < q.1))
      (block key ((cf.chain key).upTo ts) ++ cf.above key) := by
  have hblock : block key (cf.chain key).entries =
      block key ((cf.chain key).entries.takeWhile fun q => ts < q.1) ++
        block key ((cf.chain key).upTo ts) := by
    rw [← block_append, upTo, takeWhile_append_dropWhile]
  refine Cursor.at_seek ?_ ?_ ?_
  · rw [hentries, cf.entries_eq key, hblock]
    simp only [append_assoc]
  · intro x hx
    rw [decide_eq_false_iff_not, not_le]
    rcases mem_append.mp hx with hx | hx
    · obtain ⟨v, hv, rfl⟩ := mem_map.mp hx
      have hlt : v.key < key := by simpa using (mem_filter.mp hv).2
      exact (encodeKey_lt _ _ _ _).mpr (.inl hlt)
    · obtain ⟨q, hq, rfl⟩ := mem_map.mp hx
      have hlt : ts < q.1 := by simpa using mem_takeWhile_imp hq
      exact (encodeKey_lt _ _ _ _).mpr (.inr ⟨rfl, hlt⟩)
  · intro x hx
    rw [decide_eq_true_eq]
    refine not_lt.mp fun hlt => ?_
    rcases mem_append.mp (mem_of_mem_head? hx) with hx | hx
    · obtain ⟨q, hq, rfl⟩ := mem_map.mp hx
      rcases (encodeKey_lt _ _ _ _).mp hlt with h | h
      · exact lt_irrefl _ h
      · exact absurd (mem_upTo.mp hq).2 (not_le.mpr h.2)
    · obtain ⟨v, hv, rfl⟩ := mem_map.mp hx
      have hgt : key < v.key := by simpa using (mem_filter.mp hv).2
      rcases (encodeKey_lt _ _ _ _).mp hlt with h | h
      · exact lt_asymm h hgt
      · exact absurd h.1 hgt.ne'

variable {A : List (List UInt8 × List UInt8)} {o : List (TimeStamp × WriteRecord)}

theorem current_past (h : iter.At A (cf.above key)) :
    current key iter = .ok none := by
  cases hcur : (cf.above key).head? with
  | none => rw [current, h.cur, hcur]
  | some x =>
    obtain ⟨v, hv, rfl⟩ := mem_map.mp (mem_of_mem_head? hcur)
    obtain ⟨hmem, hgt⟩ := mem_filter.mp hv
    have hne : v.key ≠ key := fun heq => by simp [heq] at hgt
    rw [current_of_cur (cf.expressible v hmem) (h.cur.trans hcur), if_neg hne]

theorem current_block (hq : q ∈ (cf.chain key).entries)
    (h : iter.At A (block key (q :: o) ++ cf.above key)) :
    current key iter = .ok (some (q.2.normalize, q.1)) := by
  have hmem := mem_chain.mp hq
  have hcur : iter.cur = some (Version.entry ⟨key, q.1, q.2⟩) := h.cur
  rw [current_of_cur (cf.expressible _ hmem) hcur, if_pos rfl]

theorem find_upTo_of_jump {chain : Versions TimeStamp WriteRecord} (h : JumpsSound chain)
    {o' : List (TimeStamp × WriteRecord)}
    (hsplit : chain.entries = o ++ q :: o') (hq : isData q.2 = false)
    (hest : seekBound ≤ q.2.lastChange.estimatedVersions) (hts : q.2.lastChange.ts ≠ 0) :
    (chain.upTo q.2.lastChange.ts).length ≤ o'.length ∧
      (chain.upTo q.2.lastChange.ts).find? (isData ·.2) = o'.find? (isData ·.2) := by
  have hmem : ∀ r ∈ q :: o', r ∈ chain.entries := fun r hr => by
    rw [hsplit]
    exact mem_append_right _ hr
  obtain ⟨hlt, hskip⟩ := h q (hmem q (by simp)) hq hest hts
  have hsorted := chain.sorted
  rw [hsplit, pairwise_append, pairwise_cons] at hsorted
  obtain ⟨-, ⟨hbelow, -⟩, habove⟩ := hsorted
  -- the records down to the one that jumps are all above the target
  have hdrop : chain.upTo q.2.lastChange.ts = o'.dropWhile fun r => q.2.lastChange.ts < r.1 := by
    rw [upTo, hsplit, dropWhile_append_of_pos, dropWhile_cons_of_pos]
    · simpa using hlt
    · intro r hr
      simpa using hlt.trans (habove r hr q (by simp))
  have hnone : (o'.takeWhile fun r => q.2.lastChange.ts < r.1).find? (isData ·.2) = none := by
    refine find?_eq_none.mpr fun r hr hdata => ?_
    have hr' : r ∈ o' := (takeWhile_sublist _).subset hr
    have hgt : q.2.lastChange.ts < r.1 := by simpa using mem_takeWhile_imp hr
    exact absurd (hskip r (hmem r (mem_cons_of_mem _ hr')) hdata (hbelow r hr'))
      (not_le.mpr hgt)
  rw [hdrop]
  refine ⟨(dropWhile_suffix _).length_le, ?_⟩
  conv_rhs => rw [← takeWhile_append_dropWhile (p := fun r => q.2.lastChange.ts < r.1)
    (l := o'), find?_append, hnone, Option.none_or]

theorem loop_at (jumps : Bool) (hjumps : jumps = true → JumpsSound (cf.chain key)) :
    ∀ {fuel : ℕ} {o o' : List (TimeStamp × WriteRecord)} {iter : Iterator},
      (cf.chain key).entries = o ++ o' →
      iter.At (cf.below key ++ block key o) (block key o' ++ cf.above key) → o'.length < fuel →
      getWriteLoop jumps key fuel iter = some (.ok ((o'.find? (isData ·.2)).bind answer)) := by
  intro fuel
  induction fuel with
  | zero =>
    intro o o' iter _ _ hlen
    exact absurd hlen (Nat.not_lt_zero _)
  | succ fuel ih =>
    intro o o' iter hsplit hat hlen
    cases o' with
    | nil =>
      rw [getWriteLoop, current_past hat]
      rfl
    | cons q o' =>
      have hlen' : o'.length < fuel := by simpa using hlen
      have hq : q ∈ (cf.chain key).entries := by
        rw [hsplit]
        simp
      have htyped := cf.typed _ (mem_chain.mp hq)
      rw [getWriteLoop, current_block hq hat]
      dsimp only [WriteRecord.normalize]
      by_cases hput : q.2.writeType = put.code
      · have hdata : isData q.2 = true := by simp [isData, isPut, hput]
        have hfind : (q :: o').find? (isData ·.2) = some q := find?_cons_of_pos hdata
        rw [if_pos hput, hfind, Option.bind_some, answer, if_pos hput]
        rfl
      rw [if_neg hput]
      by_cases hdelete : q.2.writeType = delete.code
      · have hdata : isData q.2 = true := by simp [isData, isDelete, hdelete]
        have hfind : (q :: o').find? (isData ·.2) = some q := find?_cons_of_pos hdata
        rw [if_pos hdelete, hfind, Option.bind_some, answer, if_neg hput]
      have hdata : isData q.2 = false := by simp [isData, isPut, isDelete, hput, hdelete]
      have hskip : q.2.writeType = lock.code ∨
          q.2.writeType = rollback.code := by
        simpa [isData, isPut, isDelete, isLockOrRollback, hput, hdelete] using htyped
      rw [if_neg hdelete, if_pos hskip, find?_cons_of_neg (by simp [hdata])]
      split_ifs with hjump
      · obtain ⟨hjump, hest, hts⟩ := hjump
        obtain ⟨hle, hfind⟩ := find_upTo_of_jump (hjumps hjump) hsplit hdata hest hts
        have hentries : iter.entries = cf.entries := by
          rw [hat.entries_eq, cf.entries_eq key, hsplit, block_append]
          simp only [append_assoc]
        rw [← hfind]
        exact ih takeWhile_append_dropWhile.symm (at_seek_key hentries _)
          (hle.trans_lt hlen')
      · refine ih (o := o ++ [q]) (by rw [hsplit]; simp) ?_ hlen'
        rw [block_append, ← append_assoc]
        exact hat.next

end

theorem getWrite_newest {cf : Content} {key : Key} {jumps : Bool}
    (hjumps : jumps = true → JumpsSound (cf.chain key)) (ts : TimeStamp) {fuel : ℕ}
    (hfuel : (cf.chain key).entries.length < fuel) : getWrite cf jumps key ts fuel =
      some (.ok (((cf.chain key).newest (isData ·.2) ts).bind answer)) := by
  rw [getWrite, newest]
  refine loop_at jumps hjumps takeWhile_append_dropWhile.symm (at_seek_key rfl ts) ?_
  exact (dropWhile_suffix _).length_le.trans_lt hfuel

/-! ### The specification -/

def LastChangeExact (chain : Versions TimeStamp WriteRecord) : Prop :=
  ∀ q ∈ chain.entries, isData q.2 = false → q.2.lastChange.ts ≠ 0 →
    ∃ r ∈ chain.entries, isData r.2 = true ∧ r.1 = q.2.lastChange.ts ∧ r.1 < q.1 ∧
      ∀ u ∈ chain.entries, isData u.2 = true → u.1 < q.1 → u.1 ≤ r.1

theorem LastChangeExact.jumpsSound {chain : Versions TimeStamp WriteRecord}
    (h : LastChangeExact chain) : JumpsSound chain := by
  intro q hq hdata _ hts
  obtain ⟨r, -, -, hr, hlt, hmax⟩ := h q hq hdata hts
  rw [← hr]
  exact ⟨hlt, hmax⟩

structure Content.Visible (cf : Content) (key : Key) (ts : TimeStamp) (v : Version) : Prop where
  mem : v ∈ cf.records
  key_eq : v.key = key
  put : isPut v.write = true
  le : v.commitTS ≤ ts
  newest : ∀ u ∈ cf.records, u.key = key → isPut u.write = true → u.commitTS ≤ ts →
    u.commitTS ≤ v.commitTS
  no_delete : ∀ u ∈ cf.records, u.key = key → isDelete u.write = true →
    ¬ (v.commitTS < u.commitTS ∧ u.commitTS ≤ ts)

variable {c : TimeStamp} {w : WriteRecord}

theorem answer_eq_some_iff :
    answer q = some (w, c) ↔ isPut q.2 = true ∧ w = q.2.normalize ∧ c = q.1 := by
  rw [answer]
  by_cases hput : q.2.writeType = put.code
  · simp [isPut, hput, eq_comm]
  · simp [isPut, hput]

theorem newest_bind_answer {cf : Content} {key : Key} {ts : TimeStamp} :
    ((cf.chain key).newest (isData ·.2) ts).bind answer = some (w, c) ↔
      ∃ v, cf.Visible key ts v ∧ w = v.write.normalize ∧ c = v.commitTS := by
  rw [Option.bind_eq_some_iff]
  constructor
  · rintro ⟨q, hq, hans⟩
    obtain ⟨⟨hmem, hle, -⟩, hmax⟩ := newest_eq_some_iff.mp hq
    obtain ⟨hput, rfl, rfl⟩ := answer_eq_some_iff.mp hans
    refine ⟨⟨key, q.1, q.2⟩, ⟨mem_chain.mp hmem, rfl, hput, hle, ?_, ?_⟩, rfl, rfl⟩
    · rintro u hu rfl huput hule
      exact hmax (u.commitTS, u.write) (mem_chain.mpr hu) hule (by simp [isData, huput])
    · rintro u hu rfl hudel ⟨hgt, hule⟩
      exact absurd (hmax (u.commitTS, u.write) (mem_chain.mpr hu) hule
        (by simp [isData, hudel])) (not_le.mpr hgt)
  · rintro ⟨v, hv, rfl, rfl⟩
    refine ⟨(v.commitTS, v.write), newest_eq_some_iff.mpr ⟨⟨?_, hv.le, ?_⟩, ?_⟩,
      answer_eq_some_iff.mpr ⟨hv.put, rfl, rfl⟩⟩
    · exact mem_chain.mpr (hv.key_eq ▸ hv.mem)
    · simp [isData, hv.put]
    · intro r hr hle hdata
      have hmem := mem_chain.mp hr
      rcases Bool.or_eq_true_iff.mp hdata with hput | hdel
      · exact hv.newest _ hmem rfl hput hle
      · exact not_lt.mp fun hgt => hv.no_delete _ hmem rfl hdel ⟨hgt, hle⟩

/-- **Point reads.**  If each LastChange is exact, `GetWrite` ends, whether it jumps or not,
and its result is the newest Put at the timestamp unless a Delete is above it.  The records
of other keys do not matter. -/
theorem getWrite_spec (cf : Content) (key : Key) (ts : TimeStamp)
    (h : LastChangeExact (cf.chain key)) : ∃ r : Option (WriteRecord × TimeStamp),
      (∀ jumps fuel, cf.records.length < fuel →
        getWrite cf jumps key ts fuel = some (.ok r)) ∧
      (∀ w c, r = some (w, c) ↔
        ∃ v, cf.Visible key ts v ∧ w = v.write.normalize ∧ c = v.commitTS) ∧
      ∀ cf' : Content, (∀ v : Version, v.key = key → (v ∈ cf'.records ↔ v ∈ cf.records)) →
        ∀ jumps fuel, cf'.records.length < fuel →
          getWrite cf' jumps key ts fuel = some (.ok r) := by
  refine ⟨((cf.chain key).newest (isData ·.2) ts).bind answer, fun jumps fuel hfuel => ?_,
    fun w c => newest_bind_answer, fun cf' hsame jumps fuel hfuel => ?_⟩
  · exact getWrite_newest (fun _ => h.jumpsSound) ts ((cf.length_chain_le key).trans_lt hfuel)
  · have hmem : ∀ q, q ∈ (cf'.chain key).entries ↔ q ∈ (cf.chain key).entries := by
      intro q
      rw [mem_chain, mem_chain]
      exact hsame _ rfl
    have hexact : LastChangeExact (cf'.chain key) := by
      simp only [LastChangeExact, hmem]
      exact h
    have hnewest : (cf'.chain key).newest (isData ·.2) ts =
        (cf.chain key).newest (isData ·.2) ts := newest_congr fun q _ _ => hmem q
    rw [getWrite_newest (fun _ => hexact.jumpsSound) ts
      ((cf'.length_chain_le key).trans_lt hfuel), hnewest]

def prefixKeys : Content where
  records :=
    [⟨[1], 5, ⟨WriteType.put.code, 4, some [9], false, none, {}, 0⟩⟩,
     ⟨[1, 0], 50, ⟨WriteType.rollback.code, 50, none, false, none, ⟨7, 32⟩, 0⟩⟩,
     ⟨[1, 0], 20, ⟨WriteType.lock.code, 19, none, false, none, {}, 0⟩⟩,
     ⟨[1, 0], 7, ⟨WriteType.put.code, 6, some [8], false, none, {}, 0⟩⟩,
     ⟨[1, 0, 0], 60, ⟨WriteType.delete.code, 59, none, false, none, {}, 0⟩⟩]
  sorted := by decide
  expressible := by
    intro v hv
    fin_cases hv <;> exact ⟨by simp [shortValueMaxLen], by decide⟩
  typed := by decide

theorem getWrite_spec_prefixKeys : LastChangeExact (prefixKeys.chain [1, 0]) ∧
      ∃ r, (∀ jumps fuel, prefixKeys.records.length < fuel →
        getWrite prefixKeys jumps [1, 0] 100 fuel = some (.ok r)) ∧
        r = some (⟨WriteType.put.code, 6, some [8], false, none, {}, 0⟩, 7) := by
  have hexact : LastChangeExact (prefixKeys.chain [1, 0]) := by
    unfold LastChangeExact
    decide
  obtain ⟨r, hread, hspec, -⟩ := getWrite_spec prefixKeys [1, 0] 100 hexact
  refine ⟨hexact, r, hread, (hspec _ _).mpr
    ⟨⟨[1, 0], 7, ⟨put.code, 6, some [8], false, none, {}, 0⟩⟩, ?_, rfl, rfl⟩⟩
  exact ⟨by decide, rfl, rfl, by decide, by decide, by decide⟩

end MvccReader
