/-
`PeerStorage` as one logical log.

Readys are saved, the log is truncated, the cache trimmed and compacted entries deleted, in any
order: the storage should answer from the log that these describe (`Answers`).
-/
import Gookv.LogBacking

namespace Raftstore

open Function List LogicalLog StepSystem

/-! ### The answers -/

structure Answers (size : Entry → ℕ) (disk : RaftDisk) (s : PeerStorage)
    (L : LogicalLog Entry) : Prop where
  firstIndex : s.firstIndex = L.firstIndex
  lastIndex : s.lastIndex = L.lastIndex
  term : ∀ i, L.firstIndex ≤ i → i ≤ L.lastIndex →
    ∃ e, L.entry i = some e ∧ s.term disk i = .ok e.term
  term_truncated : s.term disk L.truncatedIndex = .ok L.truncatedTerm
  term_compacted : ∀ i < L.truncatedIndex, s.term disk i = .error .compacted
  term_unavailable : ∀ i, L.firstIndex ≤ i → L.lastIndex < i →
    s.term disk i = .error .unavailable
  entries : ∀ lo hi maxSize, lo < hi → 0 < maxSize → L.firstIndex ≤ lo → hi ≤ L.lastIndex + 1 →
    ∃ es, s.entriesIn size disk lo hi maxSize = .ok es ∧
      LongestFit size maxSize (L.slice lo hi) es
  entries_compacted : ∀ lo hi maxSize, lo < hi → lo < L.firstIndex →
    s.entriesIn size disk lo hi maxSize = .error .compacted
  entries_unavailable : ∀ lo hi maxSize, lo < hi → L.firstIndex ≤ lo → L.lastIndex + 1 < hi →
    s.entriesIn size disk lo hi maxSize = .error .unavailable

theorem limitSizeLoop_spec (size : Entry → ℕ) (maxSize : ℕ) (es : List Entry) (total : ℕ)
    (htotal : total ≤ maxSize) : limitSizeLoop size maxSize total es <+: es ∧
      total + ((limitSizeLoop size maxSize total es).map size).sum ≤ maxSize ∧
      ∀ p, p <+: es → total + (p.map size).sum ≤ maxSize →
        p.length ≤ (limitSizeLoop size maxSize total es).length := by
  induction es generalizing total with
  | nil =>
    refine ⟨prefix_rfl, by simpa [limitSizeLoop] using htotal, ?_⟩
    intro p hp _
    rw [prefix_nil.mp hp]
    exact Nat.zero_le _
  | cons e es ih =>
    rw [limitSizeLoop]
    by_cases hfit : maxSize < total + size e
    · -- the next entry does not fit, so neither does any longer part
      rw [if_pos hfit]
      refine ⟨ nil_prefix, by simpa using htotal, ?_⟩
      intro p hp hsum
      rcases p with _ | ⟨x, p⟩
      · exact le_rfl
      · obtain ⟨rfl, -⟩ := cons_prefix_cons.mp hp
        rw [map_cons, sum_cons] at hsum
        omega
    · rw [if_neg hfit]
      obtain ⟨hpre, hsum, hlong⟩ := ih (total + size e) (by omega)
      refine ⟨cons_prefix_cons.mpr ⟨rfl, hpre⟩, ?_, ?_⟩
      · rw [map_cons, sum_cons]
        omega
      · intro p hp hp'
        rcases p with _ | ⟨x, p⟩
        · exact Nat.zero_le _
        · obtain ⟨rfl, hrest⟩ := cons_prefix_cons.mp hp
          rw [map_cons, sum_cons] at hp'
          have := hlong p hrest (by omega)
          simp only [length_cons]
          omega

theorem longestFit_limitSize {maxSize : ℕ} (size : Entry → ℕ) (hmax : 0 < maxSize)
    (es : List Entry) : LongestFit size maxSize es (limitSize size maxSize es) := by
  unfold limitSize
  rw [if_neg hmax.ne']
  rcases es with _ | ⟨e, es⟩
  · exact ⟨prefix_rfl, fun h => h, .inl (Nat.zero_le _),
      fun p hp _ => by rw [prefix_nil.mp hp]⟩
  · dsimp only
    by_cases hfirst : size e ≤ maxSize
    · obtain ⟨hpre, hsum, hlong⟩ := limitSizeLoop_spec size maxSize es (size e) hfirst
      refine ⟨cons_prefix_cons.mpr ⟨rfl, hpre⟩, fun _ => by simp, .inl ?_, ?_⟩
      · rw [map_cons, sum_cons]
        exact hsum
      · intro p hp hp'
        rcases p with _ | ⟨x, p⟩
        · exact Nat.zero_le _
        · obtain ⟨rfl, hrest⟩ := cons_prefix_cons.mp hp
          rw [map_cons, sum_cons] at hp'
          exact Nat.succ_le_succ (hlong p hrest hp')
    · -- the first entry alone is over the limit: it is returned, and nothing else
      have hnil : limitSizeLoop size maxSize (size e) es = [] := by
        rcases es with _ | ⟨x, es⟩
        · rfl
        · rw [limitSizeLoop, if_pos (by omega)]
      rw [hnil]
      refine ⟨cons_prefix_cons.mpr ⟨rfl, nil_prefix⟩, fun _ => by simp, .inr rfl, ?_⟩
      intro p hp hp'
      rcases p with _ | ⟨x, p⟩
      · exact Nat.zero_le _
      · obtain ⟨rfl, -⟩ := cons_prefix_cons.mp hp
        rw [map_cons, sum_cons] at hp'
        omega

theorem Backs.answers {disk : RaftDisk} {s : PeerStorage} {L : LogicalLog Entry}
    (h : Backs disk s L) (size : Entry → ℕ) : Answers size disk s L where
  firstIndex := h.firstIndex
  lastIndex := h.last
  term i hlo hhi := by
    obtain ⟨e, he, -⟩ := h.stored i hlo hhi
    exact ⟨e, he, h.term_eq hlo hhi he⟩
  term_truncated := by
    rw [PeerStorage.term, if_pos h.truncatedIndex.symm, h.truncatedTerm]
  term_compacted i hi := by
    rw [PeerStorage.term, if_neg (by rw [h.truncatedIndex]; omega),
      if_pos (by rw [h.firstIndex, LogicalLog.firstIndex]; omega)]
  term_unavailable i hlo hhi := by
    rw [LogicalLog.firstIndex] at hlo
    rw [PeerStorage.term, if_neg (by rw [h.truncatedIndex]; omega),
      if_neg (by rw [h.firstIndex, LogicalLog.firstIndex]; omega), if_pos (by rw [h.last]; omega)]
  entries lo hi maxSize hlt hmax hlo hhi :=
    ⟨_, h.entriesWith_eq (h.read hlo hlt.le hhi) size maxSize hlo hlt.le hhi,
      longestFit_limitSize size hmax _⟩
  entries_compacted lo hi maxSize hlt hlo := by
    rw [PeerStorage.entriesIn, PeerStorage.entriesWith, if_neg (by omega),
      if_pos (by rw [h.firstIndex]; omega)]
  entries_unavailable lo hi maxSize hlt hlo hhi := by
    rw [PeerStorage.entriesIn, PeerStorage.entriesWith, if_neg (by omega),
      if_neg (by rw [h.firstIndex]; omega), if_pos (by rw [h.last]; omega)]

/-- The storages of `NewPeerStorage`, of the bootstrap of `NewPeer`, and of `CreatePeer`. -/
inductive PeerBoot
  | new
  | bootstrap
  | created
  deriving DecidableEq

def PeerBoot.storage : PeerBoot → PeerStorage
  | new => PeerStorage.new
  | bootstrap => PeerStorage.bootstrap
  | created => PeerStorage.bootstrap.setApplyState ⟨0, 1, 1⟩

def PeerStorage.startLog (s : PeerStorage) : LogicalLog Entry :=
  ⟨s.applyState.truncatedIndex, s.applyState.truncatedTerm, s.lastIndex, fun _ => none⟩

open PeerStorage

/-- `FlushInitialState` writes the hard state and the apply state. -/
def PeerBoot.disk : PeerBoot → RaftDisk
  | new => {}
  | boot => { hardState := some {}, applyState := some boot.storage.applyState }

namespace LogAnswers

inductive Action
  | save (rd : Ready) (path : SavePath)
  | setApplyState (state : ApplyState)
  | compactTo (index : ℕ)
  | gcRaftLog (startIdx endIdx : ℕ)

def Truncates (L : LogicalLog Entry) (state : ApplyState) : Prop :=
  L.truncatedIndex < state.truncatedIndex ∨
    L.truncatedIndex = state.truncatedIndex ∧ L.truncatedTerm = state.truncatedTerm

instance (L : LogicalLog Entry) (state : ApplyState) : Decidable (Truncates L state) :=
  inferInstanceAs (Decidable (_ ∨ _))

def step (r : ℕ) (s : LogState) : Action → Option LogState
  | .save rd path => if rd.Allowed s.log ∧ path.Valid r then some (s.save r rd path) else none
  | .setApplyState state =>
    if Truncates s.log state then
      some
        { cf := Function.update s.cf r ((s.cf r).persistApplyState state)
          storage := s.storage.setApplyState state
          log := s.log.compact state.truncatedIndex state.truncatedTerm }
    else none
  | .compactTo index => some { s with storage := s.storage.compactTo index }
  | .gcRaftLog startIdx endIdx =>
    -- compacted entries only
    if endIdx ≤ s.log.firstIndex then
      some { s with cf := Function.update s.cf r ((s.cf r).gcRaftLog startIdx endIdx) }
    else none

def start (boot : PeerBoot) (others : RaftCF) (r : ℕ) : LogState where
  cf := Function.update others r boot.disk
  storage := boot.storage
  log := boot.storage.startLog

def system (boot : PeerBoot) (others : RaftCF) (r : ℕ) : StepSystem LogState Action :=
  ⟨start boot others r, step r⟩

def EmptiesAtHighMark (s : LogState) : Action → Prop
  | .compactTo index => ∀ l, s.storage.entries.getLast? = some l → l.index < index →
      l.index = s.storage.persistedLastIndex
  | _ => True

/-! ### What the operations preserve -/

variable {disk : RaftDisk} {s : PeerStorage} {L : LogicalLog Entry}

theorem backs_boot (boot : PeerBoot) (hlog : disk.log = Table.empty) :
    Backs disk boot.storage boot.storage.startLog := by
  -- only the dummy entry may be cached
  have hempty : boot.storage.lastIndex ≤ boot.storage.applyState.truncatedIndex ∧
      (∀ e ∈ boot.storage.entries, e.index ≤ boot.storage.applyState.truncatedIndex) ∧
      boot.storage.lastIndex ≤ boot.storage.persistedLastIndex := by
    cases boot <;> decide
  obtain ⟨hlast, hcache, hhigh⟩ := hempty
  refine ⟨rfl, rfl, rfl, ?_, ?_, ?_, ?_, hhigh⟩
  · intro i hlo hhi
    exact absurd (hlo.trans_le (hhi.trans hlast)) (lt_irrefl _)
  · intro i e he
    rw [hlog, Table.get_empty] at he
    cases he
  · cases boot <;> exact ⟨0, rfl⟩
  · intro e he hlo
    exact absurd (hcache e he) (not_le.mpr hlo)

theorem backs_start (boot : PeerBoot) (others : RaftCF) (r : ℕ) :
    Backs ((start boot others r).cf r) (start boot others r).storage (start boot others r).log := by
  apply backs_boot
  show (update others r boot.disk r).log = Table.empty
  rw [update_self]
  cases boot <;> rfl

section
variable (h : Backs disk s L)
include h

theorem backs_setApplyState {state : ApplyState} (htrunc : Truncates L state)
    (disk' : RaftDisk) (hlog : disk'.log = disk.log) :
    Backs disk' (s.setApplyState state) (L.compact state.truncatedIndex state.truncatedTerm) := by
  have hle : L.truncatedIndex ≤ state.truncatedIndex := by
    rcases htrunc with h | ⟨h, -⟩ <;> omega
  refine ⟨rfl, rfl, h.last, ?_, hlog ▸ h.indexed, h.consecutive, ?_, h.high⟩
  · intro i hlo hhi
    rw [hlog]
    exact h.stored i (hle.trans_lt hlo) hhi
  · intro e he hlo
    rw [hlog]
    exact h.cached e he (hle.trans_lt hlo)

theorem backs_gcRaftLog {endIdx startIdx : ℕ}
    (hend : endIdx ≤ L.firstIndex) : Backs (disk.gcRaftLog startIdx endIdx) s L := by
  rw [LogicalLog.firstIndex] at hend
  -- the deleted range ends before the log begins
  have hget : ∀ i, L.truncatedIndex < i →
      (disk.gcRaftLog startIdx endIdx).log.get i = disk.log.get i := by
    intro i hi
    rw [RaftDisk.gcRaftLog]
    split
    · rfl
    · show (disk.log.deleteRange startIdx endIdx).get i = disk.log.get i
      rw [Table.get_deleteRange, if_neg (by omega)]
  have hsub : ∀ i e, (disk.gcRaftLog startIdx endIdx).log.get i = some e →
      disk.log.get i = some e := by
    intro i e he
    rw [RaftDisk.gcRaftLog] at he
    split at he
    · exact he
    · change (disk.log.deleteRange startIdx endIdx).get i = some e at he
      rw [Table.get_deleteRange] at he
      split at he
      · cases he
      · exact he
  refine ⟨h.truncatedIndex, h.truncatedTerm, h.last, ?_, ?_, h.consecutive, ?_, h.high⟩
  · intro i hlo hhi
    rw [hget i hlo]
    exact h.stored i hlo hhi
  · intro i e he
    exact h.indexed i e (hsub i e he)
  · intro e he hlo
    rw [hget e.index hlo]
    exact h.cached e he hlo

theorem lastIndex_compactTo {l : Entry} (hl : s.entries.getLast? = some l) (index : ℕ) :
    (s.compactTo index).lastIndex =
      if l.index < index then s.persistedLastIndex else l.index := by
  obtain ⟨f, hf⟩ := h.consecutive
  have hlidx := hf.getLast? hl
  rcases hes : s.entries with _ | ⟨c, es⟩
  · rw [hes] at hl
    cases hl
  · have hc : c.index = f := by
      rw [hes] at hf
      exact hf.head
    have hlen : 0 < s.entries.length := by rw [hes]; simp
    have hcompact : s.compactTo index = if index ≤ c.index then s
        else { s with entries := s.entries.drop (index - c.index) } := by
      unfold PeerStorage.compactTo
      rw [hes]
      rfl
    rw [hcompact]
    -- nothing is dropped, or a front part of the cache, or all of it
    split
    · rw [PeerStorage.lastIndex, hl, if_neg (by omega)]
    · rw [PeerStorage.lastIndex, List.getLast?_drop]
      by_cases hempty : s.entries.length ≤ index - c.index
      · rw [if_pos hempty, if_pos (by omega)]
      · rw [if_neg hempty, hl, if_neg (by omega)]

theorem backs_compactTo {index : ℕ} (hmark : ∀ l, s.entries.getLast? = some l → l.index < index →
      l.index = s.persistedLastIndex) : Backs disk (s.compactTo index) L := by
  -- only the cache changes, and it loses entries at its front
  have hrest : (s.compactTo index).applyState = s.applyState ∧
      (s.compactTo index).persistedLastIndex = s.persistedLastIndex ∧
      ∃ n, (s.compactTo index).entries = s.entries.drop n := by
    rw [PeerStorage.compactTo]
    split
    · exact ⟨rfl, rfl, 0, rfl⟩
    · split
      · exact ⟨rfl, rfl, 0, rfl⟩
      · exact ⟨rfl, rfl, _, rfl⟩
  obtain ⟨happly, hhigh, n, hentries⟩ := hrest
  have hlast : (s.compactTo index).lastIndex = s.lastIndex := by
    cases hl : s.entries.getLast? with
    | none =>
      rw [PeerStorage.compactTo, List.getLast?_eq_none_iff.mp hl]
      rfl
    | some l =>
      rw [lastIndex_compactTo h hl, PeerStorage.lastIndex, hl]
      split
      · rename_i hlt
        exact (hmark l hl hlt).symm
      · rfl
  obtain ⟨f, hf⟩ := h.consecutive
  refine ⟨happly ▸ h.truncatedIndex, happly ▸ h.truncatedTerm, hlast.trans h.last, h.stored,
    h.indexed, ⟨f + n, hentries ▸ hf.drop n⟩, ?_, hhigh ▸ h.high⟩
  intro e he hlo
  rw [hentries] at he
  exact h.cached e (List.mem_of_mem_drop he) hlo

theorem lastIndex_ne_of_not_mark {index : ℕ} {l : Entry}
    (hl : s.entries.getLast? = some l) (hlt : l.index < index)
    (hne : l.index ≠ s.persistedLastIndex) : (s.compactTo index).lastIndex ≠ L.lastIndex := by
  have hlast := h.last
  rw [PeerStorage.lastIndex, hl] at hlast
  rw [lastIndex_compactTo h hl, if_pos hlt, ← hlast]
  exact Ne.symm hne

end

theorem backs_step {r : ℕ} {s s' : LogState} {a : Action} (h : Backs (s.cf r) s.storage s.log)
    (hC : EmptiesAtHighMark s a) (hs : step r s a = some s') :
    Backs (s'.cf r) s'.storage s'.log := by
  cases a with
  | save rd path =>
    obtain ⟨⟨hrd, hpath⟩, rfl⟩ := of_guard hs
    rw [save_disk hpath, save_storage, save_log]
    exact h.save hrd
  | setApplyState state =>
    obtain ⟨htrunc, rfl⟩ := of_guard hs
    refine backs_setApplyState h htrunc _ ?_
    show (update s.cf r ((s.cf r).persistApplyState state) r).log = (s.cf r).log
    rw [update_self]
    rfl
  | compactTo index =>
    cases hs
    exact backs_compactTo h hC
  | gcRaftLog startIdx endIdx =>
    obtain ⟨hend, rfl⟩ := of_guard hs
    show Backs (update s.cf r ((s.cf r).gcRaftLog startIdx endIdx) r) s.storage s.log
    rw [update_self]
    exact backs_gcRaftLog h hend

/-- **The storage answers as one logical log** from the start of a peer on and after
every operation of a run, exactly when each CompactTo that empties the cache finds the
highest index ever written at its end. -/
theorem answers_iff (boot : PeerBoot) (others : RaftCF) (r : ℕ) (size : Entry → ℕ)
    (run : List Action) : (Answers size ((start boot others r).cf r) (start boot others r).storage
        (start boot others r).log ∧
      (system boot others r).AlwaysAfter (fun s => Answers size (s.cf r) s.storage s.log)
        (start boot others r) run) ↔
      (system boot others r).Meets EmptiesAtHighMark (start boot others r) run := by
  have hstart := backs_start boot others r
  rw [alwaysAfter_iff (I := fun s : LogState => Backs (s.cf r) s.storage s.log)
    (C := EmptiesAtHighMark) ?_ ?_ hstart run]
  · exact and_iff_right (hstart.answers size)
  · intro s s' a h hC hs
    have h' := backs_step h hC hs
    exact ⟨h', h'.answers size⟩
  · intro s s' a h hC hs hA
    -- only a CompactTo can fail the condition, and it then changes the last index
    cases a with
    | compactTo index =>
      cases hs
      simp only [EmptiesAtHighMark, not_forall] at hC
      obtain ⟨l, hl, hlt, hne⟩ := hC
      exact lastIndex_ne_of_not_mark h hl hlt hne hA.lastIndex
    | save rd path | setApplyState state | gcRaftLog startIdx endIdx => exact hC trivial

def shrinkingRun : List Action :=
  [.save ⟨{}, [⟨.normal, 6, 6, []⟩, ⟨.normal, 6, 7, []⟩, ⟨.normal, 6, 8, []⟩]⟩ .inline,
    .save ⟨{}, [⟨.normal, 7, 6, []⟩]⟩ .inline,
    .setApplyState ⟨6, 6, 7⟩,
    .compactTo 7]

theorem high_water_mark_reported :
    ∃ s, (system .new (fun _ => {}) 1).Reachable s ∧ s.log.lastIndex = 6 ∧
      s.storage.lastIndex = 8 ∧ s.storage.term (s.cf 1) 8 = .ok 6 := by
  obtain ⟨s, hs, hlog, hlast, hterm⟩ : ∃ s,
      (system .new (fun _ => {}) 1).runFrom (start .new (fun _ => {}) 1) shrinkingRun = some s ∧
        s.log.lastIndex = 6 ∧ s.storage.lastIndex = 8 ∧ s.storage.term (s.cf 1) 8 = .ok 6 :=
    ⟨_, rfl, rfl, rfl, rfl⟩
  exact ⟨s, reachable_of_run .start hs, hlog, hlast, hterm⟩

end LogAnswers

end Raftstore
