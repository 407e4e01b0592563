/-
What a table scan shows.
-/
import Gookv.TableScan

namespace Coprocessor

open Codec Mvcc Txntypes Cursor List Option TableScanExecutor

section

variable {snap : Snapshot} {version : TimeStamp} {k : Key} {b rest : List CfEntry}

theorem rowsIn_block (hb : ∀ e ∈ b, sameUserKey k e = true)
    (hread : ∀ e ∈ b, ∀ p, readEntry snap version e = some p → p.1 = k)
    (hrest : ∀ e ∈ rest, sameUserKey k e = false) : rowsIn snap version none (b ++ rest) =
      (b.findSome? (readEntry snap version)).toList ++ rowsIn snap version none rest := by
  induction b with
  | nil => rfl
  | cons e b ih =>
    rw [cons_append, rowsIn, if_neg (by simp), findSome?_cons]
    cases hentry : readEntry snap version e with
    | none =>
      exact ih (fun e' he' => hb e' (mem_cons_of_mem _ he'))
        fun e' he' => hread e' (mem_cons_of_mem _ he')
    | some p =>
      obtain ⟨k', v⟩ := p
      obtain rfl : k' = k := hread e (mem_cons_self ..) _ hentry
      -- the rest of the block is skipped, and nothing after it
      have hskip : (b ++ rest).dropWhile (sameUserKey k') = rest := by
        rw [dropWhile_append_of_pos fun e' he' => hb e' (mem_cons_of_mem _ he'),
          dropWhile_eq_self_iff]
        intro hpos
        rw [hrest _ (getElem_mem hpos)]
        exact Bool.false_ne_true
      dsimp only
      rw [rowsIn_some, hskip]
      rfl

theorem rowsIn_blocks {B : Key → List CfEntry} {ks : List Key} (hks : ks.Nodup)
    (hkey : ∀ k k', ∀ e ∈ B k, sameUserKey k' e = decide (k = k'))
    (hread : ∀ k, ∀ e ∈ B k, ∀ p, readEntry snap version e = some p → p.1 = k) :
    rowsIn snap version none (ks.flatMap B) =
      ks.filterMap fun k => (B k).findSome? (readEntry snap version) := by
  induction ks with
  | nil => rfl
  | cons k ks ih =>
    obtain ⟨hk, hks'⟩ := nodup_cons.mp hks
    rw [flatMap_cons, rowsIn_block (k := k) (fun e he => by simp [hkey k k e he])
      (hread k), ih hks']
    · rw [filterMap_cons]
      cases (B k).findSome? (readEntry snap version) with
      | none => rfl
      | some p => rfl
    · intro e he
      obtain ⟨k', hk', he⟩ := mem_flatMap.mp he
      rw [hkey k' k e he, decide_eq_false_iff_not]
      rintro rfl
      exact hk hk'

end

variable (snap : Snapshot) (version : TimeStamp)

def readable (k : Key) (q : TimeStamp × Write) : Option Value :=
  if q.1 ≤ version ∧ q.2.writeType = .put then writeValue snap.rows k q.2 else none

def shown (desc : Bool) (k : Key) : Option Value :=
  (Cursor.directed desc (snap.rows k).writes.entries).findSome? (readable snap version k)

def KeyRange.hasKey (r : KeyRange) (k : Key) : Bool :=
  (snap.rows k).writes.entries.any fun q => r.covers (encodeKey k q.1)

def KeyRange.Whole (r : KeyRange) : Prop :=
  ∀ k, ∀ q ∈ (snap.rows k).writes.entries, ∀ q' ∈ (snap.rows k).writes.entries,
    r.covers (encodeKey k q.1) = r.covers (encodeKey k q'.1)

def KeyRange.keys (desc : Bool) (r : KeyRange) : List Key :=
  (Cursor.directed desc snap.keys).filter (r.hasKey snap)

def block (k : Key) : List CfEntry :=
  (snap.rows k).writes.entries.map fun q => (encodeKey k q.1, q.2)

theorem readEntry_encodeKey (k : Key) (q : TimeStamp × Write) :
    readEntry snap version (encodeKey k q.1, q.2) =
      (readable snap version k q).map fun v => (k, v) := by
  rw [readEntry, decodeKey_encodeKey, readable]
  dsimp only
  by_cases hle : q.1 ≤ version
  · rw [if_neg (not_lt.mpr hle)]
    cases htype : q.2.writeType with
    | put => simp [hle]
    | delete => simp
    | lock => simp
    | rollback => simp
  · rw [if_pos (not_le.mp hle), if_neg (fun h => hle h.1)]
    rfl

theorem sameUserKey_encodeKey (k k' : Key) (q : TimeStamp × Write) :
    sameUserKey k' (encodeKey k q.1, q.2) = decide (k = k') := by
  rw [sameUserKey, decodeKey_encodeKey]

variable {snap version}

variable {r : KeyRange} {v : Value}

theorem filter_block (hr : r.Whole snap) (k : Key) : (block snap k).filter (fun e => r.covers e.1) =
      if r.hasKey snap k then block snap k else [] := by
  by_cases hkey : r.hasKey snap k = true
  · rw [if_pos hkey, filter_eq_self]
    obtain ⟨q, hq, hcovers⟩ := any_eq_true.mp hkey
    intro e he
    obtain ⟨q', hq', rfl⟩ := mem_map.mp he
    rw [← hr k q hq q' hq']
    exact hcovers
  · rw [if_neg hkey, filter_eq_nil_iff]
    intro e he hcovers
    obtain ⟨q, hq, rfl⟩ := mem_map.mp he
    exact hkey (any_eq_true.mpr ⟨q, hq, hcovers⟩)

theorem directed_newIterator (hr : r.Whole snap) (desc : Bool) :
    Cursor.directed desc (newIterator snap r).entries =
      (r.keys snap desc).flatMap fun k => Cursor.directed desc (block snap k) := by
  have hentries : (newIterator snap r).entries =
      (snap.keys.filter (r.hasKey snap)).flatMap (block snap) := by
    show ((snap.keys.flatMap (block snap)).filter fun e => r.covers e.1) = _
    rw [filter_flatMap]
    induction snap.keys with
    | nil => rfl
    | cons k ks ih =>
      rw [flatMap_cons, ih, filter_block hr, filter_cons]
      by_cases hkey : r.hasKey snap k = true
      · rw [if_pos hkey, if_pos hkey]
        rfl
      · rw [if_neg hkey, if_neg hkey]
        rfl
  rw [hentries, KeyRange.keys]
  cases desc with
  | false => rfl
  | true =>
    show (flatMap _ _).reverse = _
    rw [reverse_flatMap, ← filter_reverse]
    rfl

theorem rangeRows_eq (hr : r.Whole snap) (desc : Bool) :
    TableScanExecutor.rangeRows snap version desc r =
      (r.keys snap desc).filterMap fun k => (shown snap version desc k).map fun v => (k, v) := by
  have hnodup : (r.keys snap desc).Nodup := by
    refine Nodup.filter _ ?_
    have hkeys : snap.keys.Nodup := snap.sorted.imp ne_of_lt
    cases desc with
    | false => exact hkeys
    | true => exact nodup_reverse.mpr hkeys
  have hmem : ∀ k, ∀ e ∈ directed desc (block snap k),
      ∃ q : TimeStamp × Write, e = (encodeKey k q.1, q.2) := by
    intro k e he
    obtain ⟨q, -, rfl⟩ := mem_map.mp (mem_directed.mp he)
    exact ⟨q, rfl⟩
  rw [rangeRows, directed_newIterator hr, rowsIn_blocks hnodup]
  · refine filterMap_congr fun k _ => ?_
    rw [block, directed_map, findSome?_map, shown, map_findSome?]
    refine congrFun (congrArg _ (funext fun q => ?_)) _
    exact readEntry_encodeKey snap version k q
  · intro k k' e he
    obtain ⟨q, rfl⟩ := hmem k e he
    exact sameUserKey_encodeKey k k' q
  · intro k e he p hp
    obtain ⟨q, rfl⟩ := hmem k e he
    rw [readEntry_encodeKey] at hp
    obtain ⟨v, -, rfl⟩ := map_eq_some_iff.mp hp
    rfl

/-! ### Rows and point reads -/

structure Agrees (snap : Snapshot) (version : TimeStamp) (desc : Bool) (k : Key) : Prop where
  hidden : visibleValue snap.rows k version = none →
    ∀ q ∈ (snap.rows k).writes.entries, readable snap version k q = none
  oldest : desc = true → visibleValue snap.rows k version ≠ none →
    ∀ q ∈ (snap.rows k).writes.entries, readable snap version k q ≠ none →
      (∀ q' ∈ (snap.rows k).writes.entries, q'.1 < q.1 → readable snap version k q' = none) →
      readable snap version k q = visibleValue snap.rows k version

theorem visibleValue_eq_some {k : Key} (h : visibleValue snap.rows k version = some v) :
    ∃ q ∈ (snap.rows k).writes.entries, readable snap version k q = some v ∧
      ∀ q' ∈ (snap.rows k).writes.entries, q.1 < q'.1 → readable snap version k q' = none := by
  rw [visibleValue, getWrite_eq_newest (snap.jumps k)] at h
  split at h
  · cases h
  · rename_i commitTS write hnewest
    obtain ⟨hnewest, hput⟩ := filter_eq_some_iff.mp hnewest
    obtain ⟨⟨hmem, hle, -⟩, hmax⟩ := Versions.newest_eq_some_iff.mp hnewest
    refine ⟨_, hmem, ?_, fun q' hq' hlt => ?_⟩
    · rw [readable, if_pos ⟨hle, by simpa using hput⟩]
      exact h
    · rw [readable, if_neg]
      rintro ⟨hle', hput'⟩
      have hdata : q'.2.isDataChanged = true := by simp [Write.isDataChanged, hput']
      exact absurd (hmax q' hq' hle' hdata) (not_le.mpr hlt)

theorem shown_forward {k : Key} : shown snap version false k = some v ↔
    ∃ q ∈ (snap.rows k).writes.entries, readable snap version k q = some v ∧
      ∀ q' ∈ (snap.rows k).writes.entries, q.1 < q'.1 → readable snap version k q' = none :=
  findSome?_of_pairwise (R := fun a b : TimeStamp × Write => b.1 < a.1)
    (fun _ _ h => h.not_gt) (snap.rows k).writes.sorted

theorem shown_backward {k : Key} : shown snap version true k = some v ↔
    ∃ q ∈ (snap.rows k).writes.entries, readable snap version k q = some v ∧
      ∀ q' ∈ (snap.rows k).writes.entries, q'.1 < q.1 → readable snap version k q' = none := by
  have hsorted : ((snap.rows k).writes.entries.reverse).Pairwise fun a b => a.1 < b.1 :=
    pairwise_reverse.mpr (snap.rows k).writes.sorted
  have hfind := findSome?_of_pairwise (R := fun a b : TimeStamp × Write => a.1 < b.1)
    (fun _ _ h => h.not_gt) hsorted (f := readable snap version k) (y := v)
  simp only [mem_reverse] at hfind
  exact hfind

theorem shown_eq_none {desc : Bool} {k : Key} : shown snap version desc k = none ↔
    ∀ q ∈ (snap.rows k).writes.entries, readable snap version k q = none := by
  rw [shown, findSome?_eq_none_iff]
  simp only [mem_directed]

theorem shown_eq_visible_iff (desc : Bool) (k : Key) :
    shown snap version desc k = visibleValue snap.rows k version ↔
      Agrees snap version desc k := by
  cases hvisible : visibleValue snap.rows k version with
  | none =>
    rw [shown_eq_none]
    exact ⟨fun h => ⟨fun _ => h, fun _ hne => absurd hvisible hne⟩, fun h => h.hidden hvisible⟩
  | some v =>
    have hhidden : visibleValue snap.rows k version = none →
        ∀ q ∈ (snap.rows k).writes.entries, readable snap version k q = none := by
      rw [hvisible]
      intro h
      cases h
    obtain ⟨q₀, hq₀, hread₀, hnewer⟩ := visibleValue_eq_some hvisible
    cases desc with
    | false =>
      refine iff_of_true (shown_forward.mpr ⟨q₀, hq₀, hread₀, hnewer⟩) ⟨hhidden, fun h => ?_⟩
      exact absurd h Bool.false_ne_true
    | true =>
      constructor
      · intro hshown
        obtain ⟨q, hq, hread, holder⟩ := shown_backward.mp hshown
        refine ⟨hhidden, fun _ _ q' hq' hne holder' => ?_⟩
        -- there is only one oldest readable version
        have hts : q'.1 = q.1 := by
          refine le_antisymm (not_lt.mp fun hlt => ?_) (not_lt.mp fun hlt => ?_)
          · rw [holder' q hq hlt] at hread
            cases hread
          · exact hne (holder q' hq' hlt)
        have hsame : q' = q := by
          obtain ⟨t, w⟩ := q
          obtain ⟨t', w'⟩ := q'
          obtain rfl : t' = t := hts
          rw [Versions.eq_of_mem hq' hq]
        rw [hsame, hread, hvisible]
      · intro hagrees
        cases hshown : shown snap version true k with
        | none =>
          rw [shown_eq_none.mp hshown q₀ hq₀] at hread₀
          cases hread₀
        | some v' =>
          obtain ⟨q, hq, hread, holder⟩ := shown_backward.mp hshown
          have heq := hagrees.oldest rfl (by rw [hvisible]; exact some_ne_none v) q hq
            (by rw [hread]; exact some_ne_none v') holder
          rw [← hread, heq, hvisible]

/-! ### Whole scans -/

theorem remaining_new {ranges : List KeyRange} (hwhole : ∀ r ∈ ranges, r.Whole snap)
    (colCount : ℕ) (desc : Bool) :
    (newTableScanExecutor ranges version colCount desc).remaining snap =
      ranges.flatMap fun r => (r.keys snap desc).filterMap fun k =>
        (shown snap version desc k).map fun v => (k, v) :=
  flatMap_congr fun r hr => rangeRows_eq (hwhole r hr) desc

def snapshotRows (snap : Snapshot) (pg : PointGetter) (desc : Bool) (r : KeyRange) :
    List (Key × Value) :=
  (r.keys snap desc).filterMap fun k =>
    match pg.get snap.rows k with
    | .ok (some v) => some (k, v)
    | _ => none

def ReturnsSnapshot (snap : Snapshot) (pg : PointGetter) (ranges : List KeyRange)
    (colCount : ℕ) (desc : Bool) : Prop :=
  ∀ sizes : List ℕ, (∀ n ∈ sizes, 1 ≤ n) → ∀ rows,
    (newTableScanExecutor ranges pg.ts colCount desc).scan snap sizes = some (rows, true) →
      rows = (ranges.flatMap (snapshotRows snap pg desc)).map fun p => buildRow p.1 p.2 colCount

theorem snapshotRows_eq (hlocks : ∀ k, (snap.rows k).lock = none) {pg : PointGetter}
    {desc : Bool} : snapshotRows snap pg desc r =
      (r.keys snap desc).filterMap fun k =>
        (visibleValue snap.rows k pg.ts).map fun v => (k, v) := by
  refine filterMap_congr fun k _ => ?_
  rw [pg.get_of_unlocked (hlocks k)]
  cases visibleValue snap.rows k pg.ts with
  | none => rfl
  | some v => rfl

theorem mem_filterMap_pair {ks : List Key} {f : Key → Option Value} {k : Key} :
    (k, v) ∈ ks.filterMap (fun k => (f k).map fun v => (k, v)) ↔ k ∈ ks ∧ f k = some v := by
  simp only [mem_filterMap, map_eq_some_iff, Prod.mk.injEq]
  constructor
  · rintro ⟨k', hk', v', hv', rfl, rfl⟩
    exact ⟨hk', hv'⟩
  · rintro ⟨hk, hv⟩
    exact ⟨k, hk, v, hv, rfl, rfl⟩

theorem flatMap_rows_eq_iff {rs : List KeyRange} {keys : KeyRange → List Key}
    {f g : Key → Option Value} :
    (rs.flatMap fun r => (keys r).filterMap fun k => (f k).map fun v => (k, v)) =
        (rs.flatMap fun r => (keys r).filterMap fun k => (g k).map fun v => (k, v)) ↔
      ∀ r ∈ rs, ∀ k ∈ keys r, f k = g k := by
  constructor
  · intro h r hr k hk
    have hiff : ∀ v, f k = some v ↔ g k = some v := by
      intro v
      have hmem : ∀ f : Key → Option Value, f k = some v ↔
          (k, v) ∈ rs.flatMap fun r => (keys r).filterMap fun k => (f k).map fun v => (k, v) := by
        intro f
        simp only [mem_flatMap, mem_filterMap_pair]
        constructor
        · intro hf
          exact ⟨r, hr, hk, hf⟩
        · rintro ⟨-, -, -, hf⟩
          exact hf
      rw [hmem f, hmem g, h]
    exact ext hiff
  · intro h
    refine flatMap_congr fun r hr => filterMap_congr fun k hk => ?_
    rw [h r hr k hk]

theorem buildRow_injective {colCount : ℕ} (hcols : 2 ≤ colCount) :
    Function.Injective fun p : Key × Value => buildRow p.1 p.2 colCount := by
  rintro ⟨k, v⟩ ⟨k', v'⟩ h
  have hat : ∀ i : ℕ, (buildRow k v colCount)[i]? = (buildRow k' v' colCount)[i]? :=
    fun i => congrArg (fun row : Row => row[i]?) h
  have hkey : k = k' := by
    simpa [buildRow, getElem?_range (show 0 < colCount by omega)] using hat 0
  have hvalue : v = v' := by
    simpa [buildRow, getElem?_range (show 1 < colCount by omega)] using hat 1
  rw [hkey, hvalue]

/-- **The table scan and the snapshot.**  Every sequence of calls returns, with full batches
until the scan is drained.  A drained scan has returned the snapshot if it agrees with the
point read of each user key of its ranges, and only then if its rows show the value. -/
theorem tableScan_snapshot_iff (snap : Snapshot) (hlocks : ∀ k, (snap.rows k).lock = none)
    (pg : PointGetter) (ranges : List KeyRange) (hwhole : ∀ r ∈ ranges, r.Whole snap)
    (colCount : ℕ) (desc : Bool) : (∀ sizes : List ℕ, ∃ rows drained,
      (newTableScanExecutor ranges pg.ts colCount desc).scan snap sizes = some (rows, drained) ∧
        (drained = true ∨ rows.length = sizes.sum)) ∧
    ((∀ r ∈ ranges, ∀ k ∈ r.keys snap desc, Agrees snap pg.ts desc k) →
      ReturnsSnapshot snap pg ranges colCount desc) ∧ (2 ≤ colCount →
      (ReturnsSnapshot snap pg ranges colCount desc ↔
        ∀ r ∈ ranges, ∀ k ∈ r.keys snap desc, Agrees snap pg.ts desc k)) := by
  -- the rows of the scan and those of the point reads, range by range and key by key
  have hwant : ranges.flatMap (snapshotRows snap pg desc) =
      ranges.flatMap fun r => (r.keys snap desc).filterMap fun k =>
        (visibleValue snap.rows k pg.ts).map fun v => (k, v) :=
    flatMap_congr fun r _ => snapshotRows_eq hlocks
  have hiff : (newTableScanExecutor ranges pg.ts colCount desc).remaining snap =
      ranges.flatMap (snapshotRows snap pg desc) ↔
        ∀ r ∈ ranges, ∀ k ∈ r.keys snap desc, Agrees snap pg.ts desc k := by
    rw [remaining_new hwhole, hwant, flatMap_rows_eq_iff]
    simp only [shown_eq_visible_iff]
  have hreturns : (newTableScanExecutor ranges pg.ts colCount desc).remaining snap =
      ranges.flatMap (snapshotRows snap pg desc) →
      ReturnsSnapshot snap pg ranges colCount desc := by
    intro heq sizes _ rows hscan
    rw [scan_eq, heq] at hscan
    obtain ⟨hbuilt, hdrained⟩ := Prod.mk.inj (some.inj hscan)
    have hlt := of_decide_eq_true hdrained
    rw [← hbuilt, take_of_length_le hlt.le]
    rfl
  refine ⟨fun sizes => ⟨_, _, scan_eq _ sizes, ?_⟩,
    fun h => hreturns (hiff.mpr h),
    fun hcols => ⟨fun h => hiff.mp ?_, fun h => hreturns (hiff.mpr h)⟩⟩
  · rw [or_iff_not_imp_left]
    intro hdrained
    have hle : sizes.sum ≤
        ((newTableScanExecutor ranges pg.ts colCount desc).remaining snap).length := by
      by_contra hlt
      exact hdrained (decide_eq_true (not_le.mp hlt))
    rw [build, length_map, length_take, Nat.min_eq_left hle]
  · -- batches of one row, one more than there are rows
    set remaining := (newTableScanExecutor ranges pg.ts colCount desc).remaining snap
    have hsum : (replicate (remaining.length + 1) 1).sum = remaining.length + 1 := by simp
    have hbuilt := h (replicate (remaining.length + 1) 1)
      (fun n hn => (eq_of_mem_replicate hn).ge) _ (by
        rw [scan_eq, hsum, take_of_length_le (Nat.le_succ _)]
        exact congrArg some (Prod.ext rfl (decide_eq_true (Nat.lt_succ_self _))))
    exact (buildRow_injective hcols).list_map hbuilt

def overwritten (newer : WriteType) : Snapshot :=
  .ofModifies
    [.putWrite [1] 10 { writeType := .put, startTS := 5, shortValue := some [97] },
      .putWrite [1] 20
        { writeType := newer, startTS := 15
          shortValue := if newer = .put then some [98] else none }]
    (by simp [Modify.noJump])

theorem overwritten_whole (newer : WriteType) :
    ∀ r ∈ [(⟨none, none⟩ : KeyRange)], r.Whole (overwritten newer) := by
  intro r hr k q _ q' _
  obtain rfl := mem_singleton.mp hr
  simp only [KeyRange.covers, all_none]

theorem tableScan_shows_newer :
    ReturnsSnapshot (overwritten .put) { ts := 30 } [⟨none, none⟩] 2 false := by
  refine (tableScan_snapshot_iff (overwritten .put) ?_ { ts := 30 } [⟨none, none⟩]
    (overwritten_whole .put) 2 false).2.1 ?_
  · intro k
    refine applyModifies_induction (P := fun r => r.lock = none) rfl fun m hm _ r hr => ?_
    rcases mem_pair.mp hm with rfl | rfl
    · exact hr
    · exact hr
  · intro r hr k hk
    obtain rfl := mem_singleton.mp hr
    obtain rfl : k = [1] := mem_singleton.mp hk
    refine ⟨fun hnone => ?_, fun hdesc => absurd hdesc Bool.false_ne_true⟩
    have hvisible : visibleValue (overwritten .put).rows [1] 30 = some [98] := rfl
    rw [hvisible] at hnone
    cases hnone

theorem tableScan_shows_older :
    (PointGetter.get { ts := 30 } (overwritten .delete).rows [1] = .ok none ∧
      (newTableScanExecutor [⟨none, none⟩] 30 2 false).scan (overwritten .delete) [1, 1] =
        some ([[.bytes [1], .bytes [97]]], true)) ∧
    PointGetter.get { ts := 30 } (overwritten .put).rows [1] = .ok (some [98]) ∧
      (newTableScanExecutor [⟨none, none⟩] 30 2 true).scan (overwritten .put) [1, 1] =
        some ([[.bytes [1], .bytes [97]]], true) := by
  refine ⟨⟨rfl, ?_⟩, rfl, ?_⟩
  · rw [scan_eq, remaining_new (overwritten_whole .delete)]
    rfl
  · rw [scan_eq, remaining_new (overwritten_whole .put)]
    rfl

end Coprocessor
