/-
The table scan of the coprocessor: `TableScanExecutor` of
`internal/coprocessor/coprocessor.go`.
-/
import Gookv.Scanner
import Gookv.SelectResponse

namespace Coprocessor

open Codec Mvcc Txntypes Cursor List

abbrev CfEntry := List UInt8 × Write

def writeCF (snap : Snapshot) : List CfEntry :=
  snap.keys.flatMap fun k => (snap.rows k).writes.entries.map fun q => (encodeKey k q.1, q.2)

structure KeyRange where
  startKey : Option (List UInt8)
  endKey : Option (List UInt8)
  deriving DecidableEq

def KeyRange.covers (r : KeyRange) (key : List UInt8) : Bool :=
  (r.startKey.all fun start => start ≤ key) && r.endKey.all fun stop => key < stop

def newIterator (snap : Snapshot) (r : KeyRange) : Cursor CfEntry where
  entries := (writeCF snap).filter fun e => r.covers e.1
  pos := 0

/-! ### The executor -/

structure BatchResult where
  rows : List Row
  isDrained : Bool
  deriving DecidableEq

structure TableScanExecutor where
  ranges : List KeyRange
  version : TimeStamp
  colCount : ℕ
  currentRange : ℕ := 0
  iter : Option (Cursor CfEntry) := none
  finished : Bool := false
  desc : Bool

/-- `NewTableScanExecutor`. -/
def newTableScanExecutor (ranges : List KeyRange) (version : TimeStamp) (colCount : ℕ)
    (desc : Bool) : TableScanExecutor :=
  { ranges := ranges, version := version, colCount := colCount, desc := desc }

/-- `buildRow`: the key, the value, and numbers read from the value. -/
def buildRow (key value : List UInt8) (colCount : ℕ) : Row :=
  (List.range colCount).map fun i =>
    if i = 0 then .bytes key
    else if i = 1 then .bytes value
    else
      let offset := (i - 2) * 8
      if (colCount - 2) * 8 ≤ value.length ∧ offset + 8 ≤ value.length then
        .int64 (UInt64.ofNat (readFrom 0 ((value.drop offset).take 8))).toInt64
      else .null

def readEntry (snap : Snapshot) (version : TimeStamp) (e : CfEntry) : Option (Key × Value) :=
  match decodeKey e.1 with
  | .error _ => none
  | .ok (userKey, commitTS) =>
    if version < commitTS then none
    else
      match e.2.writeType with
      | .rollback => none
      | .lock => none
      -- a Delete ends nothing: the older versions of the key are read next
      | .delete => none
      | .put => (writeValue snap.rows userKey e.2).map fun value => (userKey, value)

def sameUserKey (userKey : Key) (e : CfEntry) : Bool :=
  match decodeKey e.1 with
  | .error _ => false
  | .ok (nextUserKey, _) => nextUserKey = userKey

def skipVersions (desc : Bool) (userKey : Key) : ℕ → Cursor CfEntry → Cursor CfEntry
  | 0, c => c
  | fuel + 1, c =>
    match c.cur with
    | none => c
    | some e =>
      if sameUserKey userKey e then skipVersions desc userKey fuel (c.advance desc) else c

namespace TableScanExecutor

def openIter (snap : Snapshot) (e : TableScanExecutor) : Option (Cursor CfEntry) :=
  match e.iter with
  | some c => some c
  | none => e.ranges[e.currentRange]?.map fun r => (newIterator snap r).seekToStart e.desc

/-- The loop of `NextBatch`; none when the fuel runs out. -/
def loop (snap : Snapshot) (batchSize : ℕ) :
    ℕ → TableScanExecutor → List Row → Option (BatchResult × TableScanExecutor)
  | 0, _, _ => none
  | fuel + 1, e, rows =>
    if batchSize ≤ rows.length then some (⟨rows, false⟩, e)
    else
      match e.openIter snap with
      | none => some (⟨rows, true⟩, { e with finished := true })
      | some c =>
        match c.cur with
        -- the range is at its end
        | none => loop snap batchSize fuel
            { e with iter := none, currentRange := e.currentRange + 1 } rows
        | some entry =>
          match readEntry snap e.version entry with
          | none => loop snap batchSize fuel { e with iter := some (c.advance e.desc) } rows
          | some (userKey, value) =>
            let c := skipVersions e.desc userKey c.entries.length (c.advance e.desc)
            loop snap batchSize fuel { e with iter := some c }
              (rows ++ [buildRow userKey value e.colCount])

def laterPasses (snap : Snapshot) (e : TableScanExecutor) (n : ℕ) : ℕ :=
  ((e.ranges.drop n).map fun r => (newIterator snap r).entries.length + 1).sum

def passes (snap : Snapshot) (e : TableScanExecutor) : ℕ :=
  match e.iter with
  | none => e.laterPasses snap e.currentRange
  | some c => (c.ahead e.desc).length + 1 + e.laterPasses snap (e.currentRange + 1)

/-- `NextBatch`. -/
def nextBatch (snap : Snapshot) (e : TableScanExecutor) (batchSize : ℕ) :
    Option (BatchResult × TableScanExecutor) :=
  if e.finished then some (⟨[], true⟩, e)
  else loop snap batchSize (e.passes snap + 1) e []

def scan (snap : Snapshot) : TableScanExecutor → List ℕ → Option (List Row × Bool)
  | e, [] => some ([], e.finished)
  | e, batchSize :: sizes =>
    (e.nextBatch snap batchSize).bind fun (result, e) =>
      (scan snap e sizes).map fun (rows, drained) => (result.rows ++ rows, drained)

end TableScanExecutor

/-! ### What is left to return -/

def rowsIn (snap : Snapshot) (version : TimeStamp) :
    Option Key → List CfEntry → List (Key × Value)
  | _, [] => []
  | skipped, e :: l =>
    if skipped.any fun k => sameUserKey k e then rowsIn snap version skipped l
    else
      match readEntry snap version e with
      | none => rowsIn snap version none l
      | some (k, v) => (k, v) :: rowsIn snap version (some k) l

theorem rowsIn_some (snap : Snapshot) (version : TimeStamp) (k : Key) (l : List CfEntry) :
    rowsIn snap version (some k) l = rowsIn snap version none (l.dropWhile (sameUserKey k)) := by
  induction l with
  | nil => rfl
  | cons e l ih =>
    by_cases hsame : sameUserKey k e = true
    · rw [rowsIn, if_pos (by simpa using hsame), dropWhile_cons_of_pos hsame]
      exact ih
    · rw [rowsIn, if_neg (by simpa using hsame), dropWhile_cons_of_neg hsame, rowsIn,
        if_neg (by simp)]

theorem ahead_skipVersions (desc : Bool) (userKey : Key) :
    ∀ (fuel : ℕ) (c : Cursor CfEntry), (c.ahead desc).length ≤ fuel →
      (skipVersions desc userKey fuel c).ahead desc =
        (c.ahead desc).dropWhile (sameUserKey userKey) := by
  intro fuel
  induction fuel with
  | zero =>
    intro c hlen
    rw [eq_nil_of_length_eq_zero (Nat.le_zero.mp hlen)]
    exact eq_nil_of_length_eq_zero (Nat.le_zero.mp hlen)
  | succ fuel ih =>
    -- the records ahead become fewer with every round, so the fuel suffices
    intro c hlen
    rw [skipVersions]
    have hcur := c.head?_ahead desc
    cases hahead : c.ahead desc with
    | nil =>
      rw [hahead] at hcur
      rw [← hcur]
      exact hahead
    | cons e l =>
      rw [hahead] at hcur hlen
      rw [← hcur]
      dsimp only [head?_cons]
      have hnext := ahead_advance hahead
      by_cases hsame : sameUserKey userKey e = true
      · rw [if_pos hsame, dropWhile_cons_of_pos hsame, ih _ (by
          rw [hnext]
          exact Nat.le_of_succ_le_succ hlen), hnext]
      · rw [if_neg hsame, dropWhile_cons_of_neg hsame]
        exact hahead

namespace TableScanExecutor

variable {snap : Snapshot} {e e' : TableScanExecutor}

def rangeRows (snap : Snapshot) (version : TimeStamp) (desc : Bool) (r : KeyRange) :
    List (Key × Value) :=
  rowsIn snap version none (Cursor.directed desc (newIterator snap r).entries)

def laterRows (snap : Snapshot) (e : TableScanExecutor) (n : ℕ) : List (Key × Value) :=
  (e.ranges.drop n).flatMap (rangeRows snap e.version e.desc)

def remaining (snap : Snapshot) (e : TableScanExecutor) : List (Key × Value) :=
  if e.finished then []
  else
    match e.iter with
    | none => e.laterRows snap e.currentRange
    | some c =>
      rowsIn snap e.version none (c.ahead e.desc) ++ e.laterRows snap (e.currentRange + 1)

def build (e : TableScanExecutor) (ps : List (Key × Value)) : List Row :=
  ps.map fun p => buildRow p.1 p.2 e.colCount

section
variable (hfinished : e.finished = false)
include hfinished

theorem remaining_of_openIter_none (h : e.openIter snap = none) : e.remaining snap = [] := by
  rw [openIter.eq_def] at h
  rw [remaining, hfinished, if_neg Bool.false_ne_true]
  split at h
  · cases h
  · rename_i hiter
    rw [Option.map_eq_none_iff, getElem?_eq_none_iff] at h
    rw [hiter]
    show e.laterRows snap e.currentRange = []
    rw [laterRows, drop_eq_nil_of_le h]
    rfl

theorem remaining_of_openIter_some {c : Cursor CfEntry} (h : e.openIter snap = some c) :
    e.remaining snap =
        rowsIn snap e.version none (c.ahead e.desc) ++ e.laterRows snap (e.currentRange + 1) ∧
      e.passes snap = (c.ahead e.desc).length + 1 + e.laterPasses snap (e.currentRange + 1) := by
  rw [openIter.eq_def] at h
  rw [remaining, hfinished, if_neg Bool.false_ne_true, passes.eq_def]
  split at h
  · rename_i hiter
    cases h
    rw [hiter]
    exact ⟨rfl, rfl⟩
  · rename_i hiter
    obtain ⟨r, hr, rfl⟩ := Option.map_eq_some_iff.mp h
    obtain ⟨hlt, hget⟩ := List.getElem?_eq_some_iff.mp hr
    rw [hiter, Cursor.ahead_seekToStart]
    dsimp only
    rw [laterRows, laterPasses, List.drop_eq_getElem_cons hlt, hget]
    refine ⟨List.flatMap_cons .., ?_⟩
    rw [List.map_cons, List.sum_cons, Cursor.length_directed]
    rfl

theorem remaining_nextRange :
    remaining snap { e with iter := none, currentRange := e.currentRange + 1 } =
      e.laterRows snap (e.currentRange + 1) := by
  rw [remaining, if_neg (by simp [hfinished])]
  rfl

theorem remaining_setIter (c : Cursor CfEntry) : remaining snap { e with iter := some c } =
      rowsIn snap e.version none (c.ahead e.desc) ++ e.laterRows snap (e.currentRange + 1) := by
  rw [remaining, if_neg (by simp [hfinished])]
  rfl

end

theorem passes_setIter (c : Cursor CfEntry) : passes snap { e with iter := some c } =
      (c.ahead e.desc).length + 1 + e.laterPasses snap (e.currentRange + 1) := rfl

theorem loop_spec (n : ℕ) : ∀ (fuel : ℕ) (e : TableScanExecutor) (rows : List Row),
    e.finished = false → e.passes snap < fuel → ∃ e', loop snap n fuel e rows =
        some (⟨rows ++ e.build ((e.remaining snap).take (n - rows.length)), e'.finished⟩, e') ∧
      e'.remaining snap = (e.remaining snap).drop (n - rows.length) ∧
      (e'.finished = true ↔ (e.remaining snap).length < n - rows.length) ∧
      e'.colCount = e.colCount := by
  intro fuel
  induction fuel with
  | zero =>
    intro e rows _ hfuel
    exact absurd hfuel (Nat.not_lt_zero _)
  | succ fuel ih =>
    intro e rows hfinished hfuel
    rw [loop]
    by_cases hfull : n ≤ rows.length
    · rw [if_pos hfull, Nat.sub_eq_zero_of_le hfull, take_zero, drop_zero]
      exact ⟨e, by rw [hfinished, build, map_nil, append_nil], rfl, by simp [hfinished],
        rfl⟩
    · rw [if_neg hfull]
      cases hopen : e.openIter snap with
      | none =>
        rw [remaining_of_openIter_none hfinished hopen]
        refine ⟨{ e with finished := true }, ?_, ?_, ?_, rfl⟩
        · rw [take_nil, build, map_nil, append_nil]
        · rw [drop_nil]
          rfl
        · simp only [length_nil, true_iff]
          omega
      | some c =>
        obtain ⟨hremaining, hpasses⟩ := remaining_of_openIter_some hfinished hopen
        rw [hpasses] at hfuel
        rw [hremaining]
        have hcur := c.head?_ahead e.desc
        cases hahead : c.ahead e.desc with
        | nil =>
          -- the range is done
          rw [hahead] at hcur hfuel
          have hspec := ih { e with iter := none, currentRange := e.currentRange + 1 } rows
            hfinished (by
              show e.laterPasses snap (e.currentRange + 1) < fuel
              rw [length_nil] at hfuel
              omega)
          rw [remaining_nextRange hfinished] at hspec
          dsimp only
          rw [← hcur]
          exact hspec
        | cons entry l =>
          rw [hahead] at hcur hfuel
          rw [length_cons] at hfuel
          have hnext := ahead_advance hahead
          dsimp only
          rw [← hcur]
          dsimp only [head?_cons]
          rw [rowsIn, if_neg (by simp)]
          cases hread : readEntry snap e.version entry with
          | none =>
            have hspec := ih { e with iter := some (c.advance e.desc) } rows hfinished (by
              rw [passes_setIter, hnext]
              omega)
            rw [remaining_setIter hfinished, hnext] at hspec
            exact hspec
          | some p =>
            obtain ⟨userKey, value⟩ := p
            -- the other versions of the user key are skipped
            have hskipped : (skipVersions e.desc userKey c.entries.length
                (c.advance e.desc)).ahead e.desc = l.dropWhile (sameUserKey userKey) := by
              rw [ahead_skipVersions, hnext]
              exact (length_ahead_le ..).trans (by rw [entries_advance])
            have hle := (dropWhile_suffix (sameUserKey userKey) (l := l)).length_le
            have hspec := ih
              { e with
                iter := some (skipVersions e.desc userKey c.entries.length (c.advance e.desc)) }
              (rows ++ [buildRow userKey value e.colCount]) hfinished (by
                rw [passes_setIter, hskipped]
                omega)
            rw [remaining_setIter hfinished, hskipped, ← rowsIn_some, length_append,
              length_singleton] at hspec
            dsimp only
            rw [show n - rows.length = n - (rows.length + 1) + 1 by omega, cons_append,
              take_succ_cons, drop_succ_cons, length_cons, Nat.succ_lt_succ_iff]
            obtain ⟨e', hloop, hrest⟩ := hspec
            refine ⟨e', ?_, hrest⟩
            rw [hloop, append_assoc]
            rfl

theorem nextBatch_spec (snap : Snapshot) (e : TableScanExecutor) (n : ℕ) :
    ∃ e', e.nextBatch snap n =
        some (⟨e.build ((e.remaining snap).take n), e'.finished⟩, e') ∧
      e'.remaining snap = (e.remaining snap).drop n ∧
      (e'.finished = true ↔ e.finished = true ∨ (e.remaining snap).length < n) ∧
      e'.colCount = e.colCount := by
  rw [nextBatch]
  cases hfinished : e.finished with
  | true =>
    have hremaining : e.remaining snap = [] := by
      rw [remaining, hfinished]
      rfl
    rw [if_pos rfl, hremaining, take_nil, drop_nil]
    exact ⟨e, by rw [hfinished]; rfl, hremaining, by simp [hfinished], rfl⟩
  | false =>
    rw [if_neg Bool.false_ne_true]
    obtain ⟨e', hloop, hrest⟩ := loop_spec n (e.passes snap + 1) e [] hfinished (Nat.lt_succ_self _)
    rw [length_nil, Nat.sub_zero] at hloop hrest
    refine ⟨e', hloop, ?_⟩
    simpa using hrest

theorem scan_eq (e : TableScanExecutor) (sizes : List ℕ) : e.scan snap sizes =
      some (e.build ((e.remaining snap).take sizes.sum),
        e.finished || decide ((e.remaining snap).length < sizes.sum)) := by
  induction sizes generalizing e with
  | nil => simp [scan, build]
  | cons n sizes ih =>
    obtain ⟨e', hbatch, hremaining, hfinished, hcols⟩ := nextBatch_spec snap e n
    have hrows : e.build ((e.remaining snap).take n) ++
        e'.build (((e.remaining snap).drop n).take sizes.sum) =
        e.build ((e.remaining snap).take (n + sizes.sum)) := by
      rw [take_add, build, build, build, map_append, hcols]
    have hdrained : (e'.finished || decide (((e.remaining snap).drop n).length < sizes.sum)) =
        (e.finished || decide ((e.remaining snap).length < n + sizes.sum)) := by
      rw [Bool.eq_iff_iff, Bool.or_eq_true, Bool.or_eq_true, hfinished, decide_eq_true_iff,
        decide_eq_true_iff, length_drop, or_assoc]
      refine or_congr_right ?_
      omega
    rw [scan, hbatch, Option.bind_some]
    dsimp only
    rw [ih e', hremaining, hdrained, Option.map_some]
    dsimp only
    rw [hrows, sum_cons]

end TableScanExecutor

end Coprocessor
