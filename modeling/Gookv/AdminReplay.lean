/-
Admin entries that are delivered again: `processConfChange`, `ExecSplitAdmin` and the
loop of `handleReady` over the committed entries, in `internal/raftstore`.
-/
import Gookv.SnapshotRegion

namespace AdminReplay

open Txntypes Metapb Raftstore SnapshotRegion List RegionPeer

def after (region : Region) (es : List AdminEntry) : Region :=
  (es.foldl RegionPeer.apply (system region).start).region

structure SameMetadata (r r' : Region) : Prop extends SameScope r r' where
  epoch : r.regionEpoch.getD {} = r'.regionEpoch.getD {}

def Effective (region : Region) : AdminEntry → Prop
  | .splitAdmin req => ∃ r ∈ req, r.Accepted region
  | e => e.change ≠ none

/-- No membership change, and no split that can be taken twice. -/
def Repeatable (startKey : Key) (e : AdminEntry) : Prop :=
  e.change = none ∧ ∀ req, e = .splitAdmin (some req) →
    ¬ (req.newRegionIDs.length = 1 ∧ req.splitKey = [] ∧ startKey = [])

def changes (region : Region) : ℕ :=
  (region.regionEpoch.getD {}).confVer + (region.regionEpoch.getD {}).version

theorem processConfChange_counts (region : Region) (cc : ConfChange) :
    (processConfChange region cc.changeType cc.nodeID cc.context).startKey = region.startKey ∧
      changes (processConfChange region cc.changeType cc.nodeID cc.context) =
        changes region + 1 := by
  unfold processConfChange changes
  cases cc.changeType <;> grind

theorem apply_cases (p : RegionPeer) (e : AdminEntry) : (¬ Effective p.region e ∧ p.apply e = p) ∨
      (∃ cc, e.change = some cc ∧ Effective p.region e ∧ (p.apply e).region =
        processConfChange p.region cc.changeType cc.nodeID cc.context) ∨
      (∃ req, e = .splitAdmin (some req) ∧ req.Accepted p.region ∧
        (p.apply e).region = (splitRegion p.region req).derived) := by
  cases e with
  | confChange cc =>
    cases cc with
    | none => exact .inl ⟨not_not.mpr rfl, rfl⟩
    | some cc => exact .inr (.inl ⟨cc, rfl, Option.some_ne_none _, rfl⟩)
  | confChangeV2 cc =>
    rcases cc with _ | ⟨_ | ⟨change, changes⟩, context⟩
    · exact .inl ⟨not_not.mpr rfl, rfl⟩
    · exact .inl ⟨not_not.mpr rfl, rfl⟩
    · exact .inr (.inl ⟨⟨change.1, change.2, context⟩, rfl, Option.some_ne_none _, rfl⟩)
  | splitAdmin req =>
    cases req with
    | none => exact .inl ⟨by simp [Effective], rfl⟩
    | some req =>
      simp only [Effective, apply, applySplitAdminEntry]
      cases hsplit : execSplitAdmin p.region req with
      | error e =>
        refine .inl ⟨?_, rfl⟩
        rintro ⟨r, hr, haccepted⟩
        obtain rfl : req = r := Option.some.inj hr
        rw [execSplitAdmin_ok_iff.mpr ⟨haccepted, rfl⟩] at hsplit
        cases hsplit
      | ok result =>
        obtain ⟨haccepted, rfl⟩ := execSplitAdmin_ok_iff.mp hsplit
        exact .inr (.inr ⟨req, rfl, haccepted, rfl⟩)

theorem apply_counts (p : RegionPeer) (e : AdminEntry) :
    (p.apply e).region.startKey = p.region.startKey ∧
      ((¬ Effective p.region e ∧ p.apply e = p) ∨
        (Effective p.region e ∧ changes p.region < changes (p.apply e).region)) := by
  rcases apply_cases p e with ⟨hrefused, hsame⟩ | ⟨cc, -, heffective, hregion⟩ |
    ⟨req, rfl, haccepted, hregion⟩
  · exact ⟨by rw [hsame], .inl ⟨hrefused, hsame⟩⟩
  · obtain ⟨hstart, hcount⟩ := processConfChange_counts p.region cc
    rw [hregion]
    exact ⟨hstart, .inr ⟨heffective, by omega⟩⟩
  · rw [hregion]
    exact ⟨rfl, .inr ⟨⟨req, rfl, haccepted⟩, Nat.lt_succ_self _⟩⟩

theorem changes_le_foldl (es : List AdminEntry) (p : RegionPeer) :
    (es.foldl RegionPeer.apply p).region.startKey = p.region.startKey ∧
      changes p.region ≤ changes (es.foldl RegionPeer.apply p).region := by
  induction es generalizing p with
  | nil => exact ⟨rfl, le_rfl⟩
  | cons e es ih =>
    obtain ⟨hstart, hstep⟩ := apply_counts p e
    obtain ⟨hstart', hrest⟩ := ih (p.apply e)
    refine ⟨hstart'.trans hstart, le_trans ?_ hrest⟩
    rcases hstep with ⟨-, hsame⟩ | ⟨-, hcount⟩
    · rw [hsame]
    · exact hcount.le

theorem sameMetadata_foldl_iff (es : List AdminEntry) (p : RegionPeer) :
    SameMetadata p.region (es.foldl RegionPeer.apply p).region ↔
      ∀ e ∈ es, ¬ Effective p.region e := by
  induction es generalizing p with
  | nil => exact iff_of_true ⟨.refl _, rfl⟩ (by simp)
  | cons e es ih =>
    rw [forall_mem_cons, foldl_cons]
    rcases (apply_counts p e).2 with ⟨hrefused, hsame⟩ | ⟨heffective, hcount⟩
    · rw [hsame, ih]
      exact (and_iff_right hrefused).symm
    · refine iff_of_false ?_ (fun h => h.1 heffective)
      intro h
      have heq : changes p.region = changes (es.foldl apply (p.apply e)).region := by
        rw [changes, h.epoch, ← changes]
      exact absurd (changes_le_foldl es (p.apply e)).2 (by omega)

/-! ### A split closes the range behind it -/

def Closed (key : Key) (region : Region) : Prop := region.endKey ≠ [] ∧ ¬ key < region.endKey

variable {e : AdminEntry} {key : Key} {es : List AdminEntry} {region : Region} {p : RegionPeer}
  {req : SplitAdminRequest}

theorem splitKey_ne_nil
    (h : Repeatable region.startKey (.splitAdmin (some req))) (haccepted : req.Accepted region) :
    req.splitKey ≠ [] := by
  obtain ⟨hcount, hstart, -⟩ := haccepted
  intro hnil
  refine h.2 req rfl ⟨hcount, hnil, ?_⟩
  by_contra hne
  exact hstart ⟨hne, by rw [hnil]; exact not_lt_nil _⟩

theorem Closed.apply (h : Closed key p.region)
    (he : Repeatable p.region.startKey e) : Closed key (p.apply e).region := by
  rcases apply_cases p e with ⟨-, hsame⟩ | ⟨cc, hcc, -⟩ | ⟨req, rfl, haccepted, hregion⟩
  · rwa [hsame]
  · simp [he.1] at hcc
  · rw [hregion]
    refine ⟨splitKey_ne_nil he haccepted, ?_⟩
    have hlt : req.splitKey < p.region.endKey := by
      by_contra hge
      exact haccepted.2.2 ⟨h.1, hge⟩
    exact fun hkey => h.2 (hkey.trans hlt)

theorem Closed.foldl (h : Closed key p.region) (hes : ∀ e ∈ es, Repeatable p.region.startKey e) :
    Closed key (es.foldl RegionPeer.apply p).region := by
  induction es generalizing p with
  | nil => exact h
  | cons e es ih =>
    rw [forall_mem_cons] at hes
    exact ih (h.apply hes.1) (by rw [(apply_counts p e).1]; exact hes.2)

theorem refused_foldl (hes : ∀ e ∈ es, Repeatable p.region.startKey e)
    (hreq : .splitAdmin (some req) ∈ es) : ¬ req.Accepted (es.foldl RegionPeer.apply p).region := by
  intro haccepted
  have hstart := (changes_le_foldl es p).1
  obtain ⟨es₁, es₂, rfl⟩ := append_of_mem hreq
  have hnil : req.splitKey ≠ [] :=
    splitKey_ne_nil (by rw [hstart]; exact hes _ hreq) haccepted
  set p₁ := es₁.foldl apply p with hp₁
  have hstart₁ : p₁.region.startKey = p.region.startKey := (changes_le_foldl es₁ p).1
  obtain ⟨hcount, hlow, hhigh⟩ := haccepted
  -- right behind the entry the region is closed at its key, cut there or refused
  have hclosed : Closed req.splitKey (p₁.apply (.splitAdmin (some req))).region := by
    rcases apply_cases p₁ (.splitAdmin (some req)) with ⟨hrefused, hsame⟩ | ⟨cc, hcc, -⟩ |
      ⟨req', hreq', -, hregion⟩
    · rw [hsame]
      by_contra hopen
      refine hrefused ⟨req, rfl, hcount, ?_, hopen⟩
      rwa [hstart₁, ← hstart]
    · cases hcc
    · obtain rfl : req = req' := by simpa using hreq'
      rw [hregion]
      exact ⟨hnil, lt_irrefl _⟩
  refine hhigh ?_
  rw [foldl_append, foldl_cons]
  refine hclosed.foldl ?_
  intro e he
  rw [(apply_counts p₁ _).1, hstart₁]
  exact hes e (by simp [he])

theorem effective_of_not_repeatable (h : ¬ Repeatable region.startKey e) : Effective region e := by
  cases e with
  | confChange cc | confChangeV2 cc => simpa [Repeatable, Effective] using h
  | splitAdmin req =>
    simp only [Repeatable, AdminEntry.change, true_and, not_forall, not_not] at h
    obtain ⟨req', hreq, hcount, hnil, hstart⟩ := h
    obtain rfl := AdminEntry.splitAdmin.inj hreq
    refine ⟨req', rfl, hcount, fun h => h.1 hstart, ?_⟩
    rintro ⟨hne, hge⟩
    obtain ⟨b, bs, hend⟩ := exists_cons_of_ne_nil hne
    rw [hnil, hend] at hge
    exact hge (nil_lt_cons b bs)

/-- **Entries delivered again leave the region alone exactly when none of them is a
membership change** or a split at the empty key of the first region. -/
theorem redelivered_iff (region : Region) (earlier es : List AdminEntry) :
    SameMetadata (after region (earlier ++ es)) (after (after region (earlier ++ es)) es) ↔
      ∀ e ∈ es, Repeatable region.startKey e := by
  have hstart : (after region (earlier ++ es)).startKey = region.startKey :=
    (changes_le_foldl (earlier ++ es) (system region).start).1
  refine (sameMetadata_foldl_iff es (system (after region (earlier ++ es))).start).trans ?_
  show (∀ e ∈ es, ¬ Effective (after region (earlier ++ es)) e) ↔ _
  constructor
  · intro h e he
    by_contra hrepeat
    rw [← hstart] at hrepeat
    exact h e he (effective_of_not_repeatable hrepeat)
  · intro hes e he heffective
    cases e with
    | confChange cc | confChangeV2 cc => exact heffective (hes _ he).1
    | splitAdmin req =>
      obtain ⟨r, hr, haccepted⟩ := heffective
      obtain rfl : req = some r := hr
      rw [after, foldl_append] at haccepted
      refine refused_foldl ?_ he haccepted
      rw [(changes_le_foldl earlier _).1]
      exact hes

theorem conf_change_counted_twice :
    let es : List AdminEntry := [.confChange (some ⟨.addNode, 20, []⟩)]
    let r := after wholeRegion es
    r.regionEpoch = some ⟨1, 0⟩ ∧ (after r es).regionEpoch = some ⟨2, 0⟩ ∧
      (after r es).peers = r.peers ∧ ¬ SameMetadata r (after r es) := by
  refine ⟨by decide, by decide, by decide, ?_⟩
  intro h
  exact absurd h.epoch (by decide)

theorem foldl_of_changes (es : List AdminEntry) (p : RegionPeer)
    (h : changes (es.foldl RegionPeer.apply p).region = changes p.region) :
    es.foldl RegionPeer.apply p = p := by
  induction es generalizing p with
  | nil => rfl
  | cons e es ih =>
    rw [foldl_cons] at h ⊢
    rcases (apply_counts p e).2 with ⟨-, hsame⟩ | ⟨-, hcount⟩
    · rw [hsame] at h ⊢
      exact ih p h
    · -- what has been counted is never taken back
      have hle := (changes_le_foldl es (p.apply e)).2
      omega

/-- **An epoch names one state of the region**: peers that have taken a log up to different
entries have the same region once they have the same epoch. -/
theorem epoch_names_region (region : Region) (log : List AdminEntry) (m n : ℕ) :
    (after region (log.take m)).regionEpoch = (after region (log.take n)).regionEpoch ↔
      after region (log.take m) = after region (log.take n) := by
  refine ⟨fun h => ?_, congrArg _⟩
  wlog hmn : m ≤ n generalizing m n
  · exact (this n m h.symm (Nat.le_of_not_le hmn)).symm
  obtain ⟨d, rfl⟩ := Nat.exists_eq_add_of_le hmn
  rw [take_add, after, after, foldl_append] at h ⊢
  exact (congrArg RegionPeer.region
    (foldl_of_changes _ _ (by rw [changes, ← h, ← changes]))).symm

end AdminReplay
