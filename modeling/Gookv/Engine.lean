/-
The engine: `internal/engine/rocks/engine.go`.
-/
import Gookv.Table
import Gookv.StoreRestart

namespace Rocks

open Txntypes StoreRestart List Option Table

abbrev DB := Table Key Value

def prefixKey (cfByte : UInt8) (key : Key) : Key := cfByte :: key

def stripPrefix (key : Key) : Key := if key.length ≤ 1 then [] else key.drop 1

def cfUpperBound (cfByte : UInt8) : Key := [cfByte + 1]

def get (db : DB) (cf : CF) (key : Key) : Option Value :=
  (cfPrefix cf).bind fun cfByte => Table.get db (prefixKey cfByte key)

def batchOp (db : DB) : Modify → Option DB
  | .put cf key value => (cfPrefix cf).map fun cfByte => Table.put db (prefixKey cfByte key) value
  | .delete cf key => (cfPrefix cf).map fun cfByte => Table.delete db (prefixKey cfByte key)
  | .deleteRange cf startKey endKey =>
    (cfPrefix cf).map fun cfByte =>
      Table.deleteRange db (prefixKey cfByte startKey) (prefixKey cfByte endKey)

def batchOps (db : DB) (modifies : List Modify) : Option DB := modifies.foldlM batchOp db

def applyModifies (db : DB) (modifies : List Modify) : DB := (batchOps db modifies).getD db

def newIterator (db : DB) (cf : CF) (lowerBound upperBound : Option Key) :
    Option (List (Key × Value)) :=
  (cfPrefix cf).map fun cfByte =>
    let lower := (lowerBound.map (prefixKey cfByte)).getD [cfByte]
    let upper := (upperBound.map (prefixKey cfByte)).getD (cfUpperBound cfByte)
    (db.toList.filter fun p => lower ≤ p.1 ∧ p.1 < upper).map fun p => (stripPrefix p.1, p.2)

variable {cf : CF} {db : DB} {b : UInt8} {cf' : CF} {b' : UInt8}

theorem cf_eq_of_cfPrefix (h : cfPrefix cf = some b)
    (h' : cfPrefix cf' = some b) : cf = cf' := by
  have heq : cfPrefix cf = cfPrefix cf' := h.trans h'.symm
  cases cf <;> cases cf' <;> first | rfl | exact absurd heq (by decide)

theorem prefixKey_eq_iff (h : cfPrefix cf = some b)
    (h' : cfPrefix cf' = some b') (k k' : Key) :
    prefixKey b k = prefixKey b' k' ↔ cf = cf' ∧ k = k' := by
  rw [prefixKey, prefixKey, cons.injEq]
  constructor
  · rintro ⟨rfl, rfl⟩
    exact ⟨cf_eq_of_cfPrefix h h', rfl⟩
  · rintro ⟨rfl, rfl⟩
    rw [h] at h'
    exact ⟨some.inj h', rfl⟩

theorem prefixKey_lt (b : UInt8) (k k' : Key) : prefixKey b k < prefixKey b k' ↔ k < k' := by
  rw [prefixKey, prefixKey, cons_lt_cons_iff]
  simp

theorem prefixKey_le (b : UInt8) (k k' : Key) : prefixKey b k ≤ prefixKey b k' ↔ k ≤ k' := by
  rw [← not_lt, prefixKey_lt, not_lt]

theorem get_of_cfPrefix (h : cfPrefix cf = some b) (key : Key) :
    get db cf key = Table.get db (prefixKey b key) := by
  rw [get, h]
  rfl

theorem get_empty (cf : CF) (key : Key) : get Table.empty cf key = none := by
  rw [get]
  cases cfPrefix cf <;> rfl

theorem prefixKey_between {lo k hi : Key} (h : cfPrefix cf = some b)
    (h' : cfPrefix cf' = some b') (hlo : prefixKey b lo ≤ prefixKey b' k)
    (hhi : prefixKey b' k < prefixKey b hi) : cf = cf' := by
  have hle : b ≤ b' := by
    by_contra hlt
    exact hlo.not_gt (cons_lt_cons_iff.mpr (.inl (not_le.mp hlt)))
  have hge : b' ≤ b := by
    rw [prefixKey, prefixKey, cons_lt_cons_iff] at hhi
    rcases hhi with hlt | ⟨heq, -⟩
    · exact hlt.le
    · exact heq.le
  rw [le_antisymm hle hge] at h
  exact cf_eq_of_cfPrefix h h'

theorem prefixKey_mem_range (h : cfPrefix cf = some b)
    (h' : cfPrefix cf' = some b') (lo hi k : Key) :
    prefixKey b lo ≤ prefixKey b' k ∧ prefixKey b' k < prefixKey b hi ↔
      cf = cf' ∧ ¬ k < lo ∧ k < hi := by
  constructor
  · rintro ⟨hlo, hhi⟩
    obtain rfl := prefixKey_between h h' hlo hhi
    obtain rfl : b = b' := some.inj (h.symm.trans h')
    exact ⟨rfl, not_lt.mpr ((prefixKey_le b lo k).mp hlo), (prefixKey_lt b k hi).mp hhi⟩
  · rintro ⟨rfl, hlo, hhi⟩
    obtain rfl : b = b' := some.inj (h.symm.trans h')
    exact ⟨(prefixKey_le b lo k).mpr (not_lt.mp hlo), (prefixKey_lt b k hi).mpr hhi⟩

theorem writeAt_of_ne {m : Modify} (h : m.cf ≠ cf) (key : Key) : m.writeAt cf key = none := by
  cases m <;> exact if_neg fun hat => h hat.1

theorem batchOp_isSome (db : DB) (m : Modify) : (batchOp db m).isSome = (cfPrefix m.cf).isSome := by
  cases m <;> exact isSome_map

theorem get_batchOp {db' : DB} {m : Modify} (h : batchOp db m = some db') (cf : CF) (key : Key) :
    get db' cf key = (m.writeAt cf key).getD (get db cf key) := by
  cases hcf : cfPrefix cf with
  | none =>
    -- no operation of a batch is on a family that does not exist
    have hnone : ∀ db : DB, get db cf key = none := by
      intro db
      rw [get, hcf]
      rfl
    have hne : m.cf ≠ cf := by
      rintro rfl
      have hsome := batchOp_isSome db m
      rw [h, hcf] at hsome
      cases hsome
    rw [hnone, hnone, writeAt_of_ne hne]
    rfl
  | some b' =>
    rw [get_of_cfPrefix hcf, get_of_cfPrefix hcf]
    cases m with
    | put c k v =>
      obtain ⟨b, hc, rfl⟩ := map_eq_some_iff.mp h
      have hat : prefixKey b' key = prefixKey b k ↔ c = cf ∧ k = key :=
        eq_comm.trans (prefixKey_eq_iff hc hcf k key)
      rw [get_put, Modify.writeAt]
      simp only [hat]
      split <;> rfl
    | delete c k =>
      obtain ⟨b, hc, rfl⟩ := map_eq_some_iff.mp h
      have hat : prefixKey b' key = prefixKey b k ↔ c = cf ∧ k = key :=
        eq_comm.trans (prefixKey_eq_iff hc hcf k key)
      rw [get_delete, Modify.writeAt]
      simp only [hat]
      split <;> rfl
    | deleteRange c k e =>
      obtain ⟨b, hc, rfl⟩ := map_eq_some_iff.mp h
      rw [get_deleteRange, Modify.writeAt]
      simp only [prefixKey_mem_range hc hcf]
      split <;> rfl

theorem get_batchOps {ms : List Modify} {db' : DB} (h : batchOps db ms = some db') (cf : CF)
    (key : Key) : get db' cf key = (LastWrite (Modify.writeAt cf key) ms).getD (get db cf key) := by
  induction ms generalizing db with
  | nil =>
    cases h
    rfl
  | cons m ms ih =>
    rw [batchOps, foldlM_cons] at h
    obtain ⟨db₁, hop, hops⟩ := bind_eq_some_iff.mp h
    rw [ih hops, get_batchOp hop, LastWrite.cons]
    cases LastWrite (Modify.writeAt cf key) ms <;> rfl

theorem batchOps_isSome (db : DB) (ms : List Modify) :
    (batchOps db ms).isSome = ms.all fun m => (cfPrefix m.cf).isSome := by
  induction ms generalizing db with
  | nil => rfl
  | cons m ms ih =>
    rw [batchOps, foldlM_cons, all_cons, ← batchOp_isSome db]
    cases hop : batchOp db m with
    | none => rfl
    | some db₁ => exact ih db₁

theorem view_applyModifies (db : DB) (ms : List Modify) :
    get (applyModifies db ms) = StoreRestart.applyModifies (get db) ms := by
  rw [applyModifies, StoreRestart.applyModifies, ← batchOps_isSome db]
  cases hops : batchOps db ms with
  | none => rfl
  | some db' =>
    funext cf key
    rw [getD_some, get_batchOps hops]
    exact (foldl_apply ms (get db) cf key).symm

/-! ### Iterators -/

theorem bounds_iff (hb : b.toNat < 255) (lowerBound upperBound : Option Key) (q : Key) :
    (lowerBound.map (prefixKey b)).getD [b] ≤ q ∧
        q < (upperBound.map (prefixKey b)).getD (cfUpperBound b) ↔
      ∃ k, q = prefixKey b k ∧ (∀ lo ∈ lowerBound, lo ≤ k) ∧ ∀ hi ∈ upperBound, k < hi := by
  have hlower : ∀ c k, (lowerBound.map (prefixKey b)).getD [b] ≤ c :: k ↔
      b < c ∨ b = c ∧ ∀ lo ∈ lowerBound, lo ≤ k := by
    intro c k
    rw [← not_lt]
    cases lowerBound with
    | none => simp [cons_lt_cons_iff, le_iff_lt_or_eq]
    | some lo =>
      simp only [map_some, getD_some, prefixKey, cons_lt_cons_iff, not_or,
        not_and, not_lt, mem_some_iff, forall_eq']
      constructor
      · rintro ⟨hle, hk⟩
        exact hle.lt_or_eq.imp_right fun heq => ⟨heq, hk heq.symm⟩
      · rintro (hlt | ⟨rfl, hk⟩)
        · exact ⟨hlt.le, fun heq => absurd heq hlt.ne'⟩
        · exact ⟨le_rfl, fun _ => hk⟩
  have hsucc : ∀ c : UInt8, c < b + 1 ↔ c < b ∨ c = b := by
    intro c
    rw [UInt8.lt_iff_toNat_lt, UInt8.lt_iff_toNat_lt, ← UInt8.toNat_inj, UInt8.toNat_add]
    have hone : (1 : UInt8).toNat = 1 := rfl
    omega
  have hupper : ∀ c k, c :: k < (upperBound.map (prefixKey b)).getD (cfUpperBound b) ↔
      c < b ∨ c = b ∧ ∀ hi ∈ upperBound, k < hi := by
    intro c k
    cases upperBound with
    | none => simp [cfUpperBound, cons_lt_cons_iff, hsucc]
    | some hi => simp [prefixKey, cons_lt_cons_iff]
  constructor
  · rintro ⟨hlo, hhi⟩
    cases q with
    | nil =>
      -- the lower bound is not empty
      exfalso
      revert hlo
      cases lowerBound <;> simp [prefixKey]
    | cons c k =>
      rw [hlower] at hlo
      rw [hupper] at hhi
      rcases hlo with hlt | ⟨rfl, hlo⟩
      · rcases hhi with hgt | ⟨rfl, -⟩
        · exact absurd hlt hgt.not_gt
        · exact absurd hlt (lt_irrefl _)
      · rcases hhi with hgt | ⟨-, hhi⟩
        · exact absurd hgt (lt_irrefl _)
        · exact ⟨k, rfl, hlo, hhi⟩
  · rintro ⟨k, rfl, hlo, hhi⟩
    exact ⟨(hlower b k).mpr (.inr ⟨rfl, hlo⟩), (hupper b k).mpr (.inr ⟨rfl, hhi⟩)⟩

theorem cfPrefix_lt (h : cfPrefix cf = some b) : b.toNat < 255 := by
  cases cf <;> cases h <;> decide

theorem stripPrefix_prefixKey (b : UInt8) (key : Key) : stripPrefix (prefixKey b key) = key := by
  cases key with
  | nil => rfl
  | cons c key => simp [stripPrefix, prefixKey]

section
variable {lowerBound upperBound : Option Key} {l : List (Key × Value)}
  (h : newIterator db cf lowerBound upperBound = some l)
include h

theorem mem_newIterator (k : Key) (v : Value) :
    (k, v) ∈ l ↔ get db cf k = some v ∧
      (∀ lo ∈ lowerBound, lo ≤ k) ∧ ∀ hi ∈ upperBound, k < hi := by
  obtain ⟨b, hb, rfl⟩ := Option.map_eq_some_iff.mp h
  rw [get_of_cfPrefix hb, List.mem_map]
  constructor
  · rintro ⟨⟨q, w⟩, hmem, heq⟩
    rw [List.mem_filter, decide_eq_true_iff, bounds_iff (cfPrefix_lt hb)] at hmem
    obtain ⟨hq, k', rfl, hbounds⟩ := hmem
    rw [stripPrefix_prefixKey] at heq
    cases heq
    exact ⟨Table.mem_toList.mp hq, hbounds⟩
  · rintro ⟨hget, hbounds⟩
    refine ⟨(prefixKey b k, v), ?_, by rw [stripPrefix_prefixKey]⟩
    rw [List.mem_filter, decide_eq_true_iff, bounds_iff (cfPrefix_lt hb)]
    exact ⟨Table.mem_toList.mpr hget, k, rfl, hbounds⟩

theorem sorted_newIterator : l.Pairwise fun p q => p.1 < q.1 := by
  obtain ⟨b, hb, rfl⟩ := map_eq_some_iff.mp h
  rw [pairwise_map]
  refine (db.sorted_toList.filter _).imp_of_mem ?_
  intro p q hp hq hlt
  -- both keys are those of the family, which compare as what follows the byte
  have hfamily : ∀ {r : Key × Value}, r ∈ db.toList.filter (fun p =>
      (lowerBound.map (prefixKey b)).getD [b] ≤ p.1 ∧
        p.1 < (upperBound.map (prefixKey b)).getD (cfUpperBound b)) →
      ∃ k, r.1 = prefixKey b k := by
    intro r hr
    rw [mem_filter, decide_eq_true_iff, bounds_iff (cfPrefix_lt hb)] at hr
    obtain ⟨-, k, hk, -⟩ := hr
    exact ⟨k, hk⟩
  obtain ⟨k, hk⟩ := hfamily hp
  obtain ⟨k', hk'⟩ := hfamily hq
  dsimp only
  rw [hk, hk', prefixKey_lt] at hlt
  rw [hk, hk', stripPrefix_prefixKey, stripPrefix_prefixKey]
  exact hlt

end

/-! ### Save points -/

structure SavePointState where
  repr : List Modify := []
  count : ℕ := 0
  dataSize : ℕ := 0

structure WriteBatch extends SavePointState where
  savePoints : List SavePointState := []

def dataSize : Modify → ℕ
  | .put _ key value => key.length + value.length + 1
  | .delete _ key => key.length + 1
  | .deleteRange _ startKey endKey => startKey.length + endKey.length + 2

inductive BatchCall
  | write (m : Modify)
  | setSavePoint
  | rollbackToSavePoint
  | popSavePoint
  | clear

/-- A call that returns an error leaves the batch as it is. -/
def WriteBatch.call (wb : WriteBatch) : BatchCall → WriteBatch
  | .write m =>
    if (cfPrefix m.cf).isNone then wb
    else { wb with
      repr := wb.repr ++ [m], count := wb.count + 1, dataSize := wb.dataSize + dataSize m }
  | .setSavePoint => { wb with savePoints := wb.toSavePointState :: wb.savePoints }
  | .rollbackToSavePoint =>
    match wb.savePoints with
    | [] => wb
    | sp :: savePoints => ⟨sp, savePoints⟩
  | .popSavePoint => { wb with savePoints := wb.savePoints.tail }
  | .clear => {}

def WriteBatch.commit (wb : WriteBatch) (db : DB) : DB := applyModifies db wb.repr

/-- Pieces of work in one another, each kept or undone as a whole. -/
inductive Work
  | done
  | write (m : Modify) (rest : Work)
  | kept (inner rest : Work)
  | undone (inner rest : Work)

def Work.calls : Work → List BatchCall
  | done => []
  | write m rest => .write m :: rest.calls
  | kept inner rest => .setSavePoint :: (inner.calls ++ .popSavePoint :: rest.calls)
  | undone inner rest => .setSavePoint :: (inner.calls ++ .rollbackToSavePoint :: rest.calls)

def Work.writes : Work → List Modify
  | done => []
  | write m rest => if (cfPrefix m.cf).isNone then rest.writes else m :: rest.writes
  | kept inner rest => inner.writes ++ rest.writes
  | undone _ rest => rest.writes

def WriteBatch.append (wb : WriteBatch) (ms : List Modify) : WriteBatch :=
  { wb with
    repr := wb.repr ++ ms
    count := wb.count + ms.length
    dataSize := wb.dataSize + (ms.map Rocks.dataSize).sum }

theorem foldl_calls (w : Work) (wb : WriteBatch) :
    w.calls.foldl WriteBatch.call wb = wb.append w.writes := by
  induction w generalizing wb with
  | done => simp [Work.calls, Work.writes, WriteBatch.append]
  | write m rest ih =>
    rw [Work.calls, foldl_cons, ih, Work.writes, WriteBatch.call]
    split_ifs <;> simp [WriteBatch.append, Nat.add_assoc, Nat.add_comm 1]
  | kept inner rest ihi ihr =>
    rw [Work.calls, foldl_cons, foldl_append, foldl_cons, ihi, ihr]
    simp [WriteBatch.call, WriteBatch.append, Work.writes, Nat.add_assoc]
  | undone inner rest ihi ihr =>
    -- the save point is the top of the stack again, whatever was set and taken inside
    rw [Work.calls, foldl_cons, foldl_append, foldl_cons, ihi, ihr]
    rfl

/-- **Work that is rolled back leaves no trace**, however deep it nests: the batch has the
writes that were kept, with their count and size, and commits them. -/
theorem save_points_nest (w : Work) (wb : WriteBatch) (db : DB) :
    w.calls.foldl WriteBatch.call wb = wb.append w.writes ∧
      (w.calls.foldl WriteBatch.call {}).commit db = applyModifies db w.writes := by
  refine ⟨foldl_calls w wb, ?_⟩
  rw [foldl_calls]
  rfl

end Rocks
