/-
Range scans (`internal/storage/mvcc/scanner.go`).
-/
import Gookv.Cursor
import Gookv.Mvcc

open Txntypes

namespace Mvcc

open Option

/-! ### Column families -/

structure Snapshot where
  rows : Store
  keys : List Key
  sorted : keys.Pairwise (· < ·)
  support : ∀ k, k ∉ keys → rows k = Store.empty k
  jumps : ∀ k, JumpsSound (rows k)

def Modify.noJump : Modify → Bool
  | .putWrite _ _ write => write.lastChange.ts = 0
  | _ => true

theorem noJumps_applyModifies {ms : List Modify} (h : ∀ m ∈ ms, m.noJump = true) (k : Key) :
    NoJumps (applyModifies Store.empty ms k) := by
  refine applyModifies_induction (fun q hq => absurd hq (by simp [Store.empty]))
    fun m hm _ r hr => ?_
  cases m with
  | putWrite key commitTS write => exact hr.put (by simpa [Modify.noJump] using h _ hm) _
  | deleteWrite key commitTS => exact fun q hq => hr q (Versions.mem_erase.mp hq).1
  | putLock key lock => exact hr
  | unlockKey key => exact hr
  | putValue key startTS value => exact hr
  | deleteValue key startTS => exact hr

def Snapshot.ofModifies (ms : List Modify) (h : ∀ m ∈ ms, m.noJump = true) : Snapshot where
  rows := applyModifies Store.empty ms
  keys := (ms.map Modify.key).dedup.insertionSort (· ≤ ·)
  sorted := by
    have hle := List.pairwise_insertionSort (· ≤ ·) (ms.map Modify.key).dedup
    have hnodup : ((ms.map Modify.key).dedup.insertionSort (· ≤ ·)).Nodup :=
      (List.perm_insertionSort _ _).nodup_iff.mpr (List.nodup_dedup _)
    exact (hle.and hnodup).imp fun h => lt_of_le_of_ne h.1 h.2
  support k hk := by
    refine applyModifies_of_forall_ne fun m hm heq => hk ?_
    rw [List.mem_insertionSort, List.mem_dedup]
    exact List.mem_map.mpr ⟨m, hm, heq⟩
  jumps k := fun q hq _ hj => absurd (noJumps_applyModifies h k q hq) hj.2

structure ScannerConfig where
  readTS : TimeStamp
  desc : Bool := false
  isolationLevel : IsolationLevel := .si
  keyOnly : Bool := false
  lowerBound : Option Key := none
  upperBound : Option Key := none
  bypassLocks : List TimeStamp := []

namespace ScannerConfig

def aboveLower (cfg : ScannerConfig) (k : Key) : Bool := cfg.lowerBound.all fun l => l ≤ k

def belowUpper (cfg : ScannerConfig) (k : Key) : Bool := cfg.upperBound.all fun u => k < u

def inRange (cfg : ScannerConfig) (k : Key) : Bool := cfg.aboveLower k && cfg.belowUpper k

/-- The version lies in the bounds of the write cursor, which are encoded keys. -/
def coversWrite (cfg : ScannerConfig) (k : Key) (commitTS : TimeStamp) : Bool :=
  cfg.aboveLower k &&
    if cfg.desc then cfg.upperBound.all fun u => k < u ∨ k = u ∧ commitTS ≠ 0
    else cfg.belowUpper k

def withinBound (cfg : ScannerConfig) (k : Key) : Bool :=
  if cfg.desc then cfg.aboveLower k else cfg.belowUpper k

def advance {α : Type*} (cfg : ScannerConfig) (c : Cursor α) : Cursor α :=
  if cfg.desc then c.prev else c.next

def pointGetter (cfg : ScannerConfig) : PointGetter where
  ts := cfg.readTS
  isolationLevel := cfg.isolationLevel
  bypassLocks := cfg.bypassLocks

end ScannerConfig

structure WriteEntry where
  key : Key
  commitTS : TimeStamp
  write : Write

structure LockEntry where
  key : Key
  lock : Lock

variable (snap : Snapshot) (cfg : ScannerConfig)

def records (k : Key) : List (TimeStamp × Write) :=
  (snap.rows k).writes.entries.filter fun q => cfg.coversWrite k q.1

def boundedLock (k : Key) : Option Lock :=
  if cfg.inRange k then (snap.rows k).lock else none

def versions (k : Key) (rs : List (TimeStamp × Write)) : List WriteEntry :=
  rs.map fun q => ⟨k, q.1, q.2⟩

def recordsOf (ks : List Key) : List WriteEntry :=
  ks.flatMap fun k => versions k (records snap cfg k)

def writeEntries : List WriteEntry := recordsOf snap cfg snap.keys

def lockEntries : List LockEntry :=
  snap.keys.filterMap fun k => (boundedLock snap cfg k).map fun lock => ⟨k, lock⟩

def reached (key : Key) (ts : TimeStamp) (e : WriteEntry) : Bool :=
  key < e.key ∨ e.key = key ∧ e.commitTS ≤ ts

/-! ### The scanner -/

structure Scanner where
  writeCursor : Cursor WriteEntry
  lockCursor : Option (Cursor LockEntry)
  isStarted : Bool := false

inductive ScanFailure
  | locked (lock : Lock)
  | valueNotFound (startTS : TimeStamp)
  deriving DecidableEq

inductive NextResult
  | found (key : Key) (value : Value)
  | exhausted
  | failed (key : Key) (why : ScanFailure)
  deriving DecidableEq

def newScanner : Scanner where
  writeCursor := ⟨writeEntries snap cfg, 0⟩
  lockCursor := if cfg.isolationLevel = .si then some ⟨lockEntries snap cfg, 0⟩ else none

def Scanner.initialSeek (s : Scanner) : Scanner :=
  if s.isStarted then s
  else if cfg.desc then
    { writeCursor := s.writeCursor.seekToLast
      lockCursor := s.lockCursor.map Cursor.seekToLast
      isStarted := true }
  else
    { writeCursor := s.writeCursor.seekToFirst
      lockCursor := s.lockCursor.map Cursor.seekToFirst
      isStarted := true }

def Scanner.advanceLockCursor (s : Scanner) : Scanner :=
  { s with lockCursor := s.lockCursor.map cfg.advance }

def Scanner.currentUserKey (s : Scanner) : Option (Key × Bool × Bool × Scanner) :=
  match s.writeCursor.cur, s.lockCursor.bind Cursor.cur with
  | none, none => none
  | none, some l => some (l.key, false, true, s.advanceLockCursor cfg)
  | some w, none => some (w.key, true, false, s)
  | some w, some l =>
    if w.key = l.key then some (w.key, true, true, s)
    else if (if cfg.desc then l.key < w.key else w.key < l.key) then
      some (w.key, true, false, s)
    else some (l.key, false, true, s.advanceLockCursor cfg)

def Scanner.handleLock (s : Scanner) (userKey : Key) : Option Lock × Scanner :=
  match s.lockCursor.bind Cursor.cur with
  | none => (none, s)
  | some l =>
    if l.key ≠ userKey then (none, s)
    else if l.lock.lockType ≠ .pessimistic ∧ l.lock.startTS ≤ cfg.readTS ∧
        l.lock.startTS ∉ cfg.bypassLocks then
      (some l.lock, s.advanceLockCursor cfg)
    else (none, s.advanceLockCursor cfg)

def advanceWriteCursor (c : Cursor WriteEntry) : Cursor WriteEntry := cfg.advance c

def stepToTS (userKey : Key) : ℕ → Cursor WriteEntry → Option Bool × Cursor WriteEntry
  | 0, c => (none, c)
  | n + 1, c =>
    let c := advanceWriteCursor cfg c
    match c.cur with
    | none => (some false, c)
    | some e =>
      if e.key ≠ userKey then (some false, c)
      else if e.commitTS ≤ cfg.readTS then (some true, c)
      else stepToTS userKey n c

def moveWriteCursorToTS (userKey : Key) (c : Cursor WriteEntry) : Bool × Cursor WriteEntry :=
  match c.cur with
  | none => (false, c)
  | some e =>
    if e.key = userKey ∧ e.commitTS ≤ cfg.readTS then (true, c)
    else if e.key = userKey ∧ cfg.readTS < e.commitTS then
      match stepToTS cfg userKey seekBound c with
      | (some b, c) => (b, c)
      | (none, c) =>
        let c := c.seek (reached userKey cfg.readTS)
        match c.cur with
        | none => (false, c)
        | some e => (e.key = userKey ∧ e.commitTS ≤ cfg.readTS, c)
    else (false, c)

def leaveUserKey (userKey : Key) : ℕ → Cursor WriteEntry → Cursor WriteEntry
  | 0, c => c.seek (reached (userKey ++ [0]) tsMax)
  | n + 1, c =>
    let c := c.next
    match c.cur with
    | none => c
    | some e => if e.key ≠ userKey then c else leaveUserKey userKey n c

def repositionForBackward (userKey : Key) (c : Cursor WriteEntry) : Cursor WriteEntry :=
  let c := c.seek (reached userKey tsMax)
  match c.cur with
  | some _ => c.prev
  | none => c.seekToLast

def moveWriteCursorToNextUserKey (userKey : Key) (c : Cursor WriteEntry) : Cursor WriteEntry :=
  if cfg.desc then repositionForBackward userKey c else leaveUserKey userKey seekBound c

def putValue (userKey : Key) (write : Write) : Except ScanFailure Value :=
  if cfg.keyOnly then .ok []
  else
    match writeValue snap.rows userKey write with
    | some value => .ok value
    | none => .error (.valueNotFound write.startTS)

def skipVersion (userKey : Key) (write : Write) (c : Cursor WriteEntry) : Cursor WriteEntry :=
  if seekBound ≤ write.lastChange.estimatedVersions ∧ write.lastChange.ts ≠ 0 then
    c.seek (reached userKey write.lastChange.ts)
  else c.next

def versionLoop (userKey : Key) :
    ℕ → Cursor WriteEntry → Option (Except ScanFailure (Option Value) × Cursor WriteEntry)
  | 0, _ => none
  | fuel + 1, c =>
    match c.cur with
    | none => some (.ok none, c)
    | some e =>
      if e.key ≠ userKey then some (.ok none, c)
      else if cfg.readTS < e.commitTS then versionLoop userKey fuel c.next
      else
        match e.write.writeType with
        | .put => some ((putValue snap cfg userKey e.write).map some,
            moveWriteCursorToNextUserKey cfg userKey c)
        | .delete => some (.ok none, moveWriteCursorToNextUserKey cfg userKey c)
        | .lock | .rollback => versionLoop userKey fuel (skipVersion userKey e.write c)

def handleWrite (fuel : ℕ) (userKey : Key) (c : Cursor WriteEntry) :
    Option (Except ScanFailure (Option Value) × Cursor WriteEntry) :=
  let c := if cfg.desc then c.seek (reached userKey cfg.readTS) else c
  match moveWriteCursorToTS cfg userKey c with
  | (false, c) => some (.ok none, moveWriteCursorToNextUserKey cfg userKey c)
  | (true, c) => versionLoop snap cfg userKey fuel c

def Scanner.conclude (s : Scanner) (key : Key) :
    Except ScanFailure (Option Value) × Cursor WriteEntry → Option NextResult × Scanner
  | (.error why, c) => (some (.failed key why), { s with writeCursor := c })
  | (.ok (some value), c) => (some (.found key value), { s with writeCursor := c })
  | (.ok none, c) => (none, { s with writeCursor := c })

def Scanner.pass (fuel : ℕ) (s : Scanner) : Option (Option NextResult × Scanner) :=
  match s.currentUserKey cfg with
  | none => some (some .exhausted, s)
  | some (key, hasWrite, hasLock, s) =>
    if cfg.withinBound key = false then some (some .exhausted, s)
    else
      match if hasLock then s.handleLock cfg key else (none, s) with
      | (some lock, s) => some (some (.failed key (.locked lock)), s)
      | (none, s) =>
        if hasWrite then (handleWrite snap cfg fuel key s.writeCursor).map (s.conclude key)
        else some (none, s)

def Scanner.loop : ℕ → Scanner → Option (NextResult × Scanner)
  | 0, _ => none
  | fuel + 1, s =>
    match s.pass snap cfg fuel with
    | none => none
    | some (some r, s) => some (r, s)
    | some (none, s) => Scanner.loop fuel s

def Scanner.next (fuel : ℕ) (s : Scanner) : Option (NextResult × Scanner) :=
  (s.initialSeek cfg).loop snap cfg fuel

def Scanner.collect : ℕ → Scanner → Option (List (Key × Value) × Option (Key × ScanFailure))
  | 0, _ => none
  | fuel + 1, s =>
    match s.next snap cfg fuel with
    | none => none
    | some (.exhausted, _) => some ([], none)
    | some (.failed key why, _) => some ([], some (key, why))
    | some (.found key value, s) =>
      (Scanner.collect fuel s).map fun r => ((key, value) :: r.1, r.2)

open Scanner

/-! ### The result of a scan -/

variable {snap cfg} {s s' : Scanner} {k : Key}

abbrev ScanResult := List (Key × Value) × Option (Key × ScanFailure)

variable {x : NextResult × Scanner} {o : Option ScanResult} {n : ℕ}

variable {c : Cursor WriteEntry} {r : ScanResult} {m : ℕ}

theorem versionLoop_mono (h : n ≤ m) {x : Except ScanFailure (Option Value) × Cursor WriteEntry}
    (hx : versionLoop snap cfg k n c = some x) : versionLoop snap cfg k m c = some x := by
  induction n generalizing m c with
  | zero => exact absurd hx (by simp [versionLoop])
  | succ n ih =>
    obtain ⟨m, rfl⟩ : ∃ m', m = m' + 1 := ⟨m - 1, by omega⟩
    have hnm : n ≤ m := by omega
    rw [versionLoop] at hx ⊢
    cases hc : c.cur with
    | none =>
      rw [hc] at hx
      exact hx
    | some e =>
      simp only [hc] at hx ⊢
      by_cases hk : e.key = k
      · rw [if_neg (not_not.mpr hk)] at hx ⊢
        by_cases hts : cfg.readTS < e.commitTS
        · rw [if_pos hts] at hx ⊢
          exact ih hnm hx
        · rw [if_neg hts] at hx ⊢
          cases hty : e.write.writeType with
          | put | delete =>
            rw [hty] at hx
            exact hx
          | lock | rollback =>
            rw [hty] at hx
            exact ih hnm hx
      · rw [if_pos hk] at hx ⊢
        exact hx

theorem handleWrite_mono (h : n ≤ m) {x : Except ScanFailure (Option Value) × Cursor WriteEntry}
    (hx : handleWrite snap cfg n k c = some x) : handleWrite snap cfg m k c = some x := by
  unfold handleWrite at hx ⊢
  dsimp only at hx ⊢
  cases hm : moveWriteCursorToTS cfg k
      (if cfg.desc then c.seek (reached k cfg.readTS) else c) with
  | mk b c' =>
    rw [hm] at hx
    cases b with
    | false => exact hx
    | true => exact versionLoop_mono h hx

theorem pass_mono (h : n ≤ m) {x : Option NextResult × Scanner}
    (hx : s.pass snap cfg n = some x) : s.pass snap cfg m = some x := by
  unfold Scanner.pass at hx ⊢
  cases hcur : s.currentUserKey cfg with
  | none =>
    rw [hcur] at hx
    exact hx
  | some q =>
    obtain ⟨key, hasWrite, hasLock, s1⟩ := q
    simp only [hcur] at hx ⊢
    split at hx
    · rename_i hb
      rw [if_pos hb]
      exact hx
    · rename_i hb
      rw [if_neg hb]
      cases hl : (if hasLock then s1.handleLock cfg key else (none, s1)) with
      | mk o s2 =>
        rw [hl] at hx
        cases o with
        | some lock => exact hx
        | none =>
          cases hasWrite with
          | false => exact hx
          | true =>
            obtain ⟨y, hy, hyx⟩ := Option.map_eq_some_iff.mp hx
            exact Option.map_eq_some_iff.mpr ⟨y, handleWrite_mono h hy, hyx⟩

def Passes (snap : Snapshot) (cfg : ScannerConfig) (s : Scanner) (o : Option NextResult)
    (s' : Scanner) : Prop :=
  ∃ n, s.pass snap cfg n = some (o, s')

theorem Passes.pass_eq {o : Option NextResult} (h : Passes snap cfg s o s')
    {x : Option NextResult × Scanner} (hx : s.pass snap cfg n = some x) : x = (o, s') := by
  obtain ⟨m, hm⟩ := h
  have h1 := pass_mono (le_max_left n m) hx
  rw [pass_mono (le_max_right n m) hm] at h1
  exact (some.inj h1).symm

theorem loop_mono (h : n ≤ m) (hx : s.loop snap cfg n = some x) : s.loop snap cfg m = some x := by
  induction n generalizing m s with
  | zero => exact absurd hx (by simp [loop])
  | succ n ih =>
    obtain ⟨m, rfl⟩ : ∃ m', m = m' + 1 := ⟨m - 1, by omega⟩
    have hnm : n ≤ m := by omega
    rw [loop] at hx ⊢
    cases hp : s.pass snap cfg n with
    | none =>
      rw [hp] at hx
      cases hx
    | some q =>
      rw [hp] at hx
      rw [pass_mono hnm hp]
      obtain ⟨_ | r, s1⟩ := q
      · exact ih hnm hx
      · exact hx

theorem collect_mono (h : n ≤ m)
    (hr : s.collect snap cfg n = some r) : s.collect snap cfg m = some r := by
  induction n generalizing m s r with
  | zero => exact absurd hr (by simp [collect])
  | succ n ih =>
    obtain ⟨m, rfl⟩ : ∃ m', m = m' + 1 := ⟨m - 1, by omega⟩
    have hnm : n ≤ m := by omega
    rw [collect] at hr ⊢
    cases hp : s.next snap cfg n with
    | none =>
      rw [hp] at hr
      cases hr
    | some q =>
      have hp' : s.next snap cfg m = some q := loop_mono hnm hp
      rw [hp] at hr
      rw [hp']
      obtain ⟨⟨key, value⟩ | _ | ⟨key, why⟩, s1⟩ := q
      · obtain ⟨r', hr', hrr⟩ := map_eq_some_iff.mp hr
        exact map_eq_some_iff.mpr ⟨r', ih hnm hr', hrr⟩
      · exact hr
      · exact hr

def Yields (snap : Snapshot) (cfg : ScannerConfig) (s : Scanner) (o : Option ScanResult) :
    Prop :=
  ∀ r, (∃ n, s.collect snap cfg n = some r) ↔ o = some r

theorem next_of_started (h : s.isStarted = true) (n : ℕ) :
    s.next snap cfg n = s.loop snap cfg n := by
  rw [next, initialSeek, if_pos h]

theorem Yields.start (h : Yields snap cfg (s.initialSeek cfg) o)
    (hs : (s.initialSeek cfg).isStarted = true) : Yields snap cfg s o := by
  have hcollect : ∀ n, s.collect snap cfg n = (s.initialSeek cfg).collect snap cfg n := by
    intro n
    cases n with
    | zero => rfl
    | succ n => rw [collect, collect, next_of_started hs, next]
  intro r
  simpa only [hcollect] using h r

def LoopsTo (snap : Snapshot) (cfg : ScannerConfig) (s : Scanner) (x : NextResult × Scanner) :
    Prop :=
  ∃ n, s.loop snap cfg n = some x

theorem Passes.loopsTo_again (h : Passes snap cfg s none s') :
    LoopsTo snap cfg s x ↔ LoopsTo snap cfg s' x := by
  constructor
  · rintro ⟨n, hn⟩
    cases n with
    | zero => exact absurd hn (by simp [loop])
    | succ n =>
      rw [loop] at hn
      cases hpass : s.pass snap cfg n with
      | none =>
        rw [hpass] at hn
        cases hn
      | some q =>
        obtain rfl := h.pass_eq hpass
        rw [hpass] at hn
        exact ⟨n, hn⟩
  · rintro ⟨n, hn⟩
    obtain ⟨m, hm⟩ := h
    refine ⟨n + m + 1, ?_⟩
    rw [loop, pass_mono (Nat.le_add_left m n) hm]
    exact loop_mono (Nat.le_add_right n m) hn

theorem Passes.loopsTo_result {r : NextResult} (h : Passes snap cfg s (some r) s') :
    LoopsTo snap cfg s x ↔ x = (r, s') := by
  constructor
  · rintro ⟨n, hn⟩
    cases n with
    | zero => exact absurd hn (by simp [loop])
    | succ n =>
      rw [loop] at hn
      cases hpass : s.pass snap cfg n with
      | none =>
        rw [hpass] at hn
        cases hn
      | some q =>
        obtain rfl := h.pass_eq hpass
        rw [hpass] at hn
        exact (some.inj hn).symm
  · rintro rfl
    obtain ⟨m, hm⟩ := h
    exact ⟨m + 1, by rw [loop, hm]⟩

def Concludes (snap : Snapshot) (cfg : ScannerConfig) :
    NextResult × Scanner → ScanResult → Prop
  | (.exhausted, _), r => r = ([], none)
  | (.failed key why, _), r => r = ([], some (key, why))
  | (.found key value, s), r =>
    ∃ r', (∃ n, s.collect snap cfg n = some r') ∧ r = ((key, value) :: r'.1, r'.2)

section
variable (hs : s.isStarted = true)
include hs

theorem collect_iff : (∃ n, s.collect snap cfg n = some r) ↔
      ∃ x, LoopsTo snap cfg s x ∧ Concludes snap cfg x r := by
  constructor
  · rintro ⟨n, hn⟩
    cases n with
    | zero => exact absurd hn (by simp [collect])
    | succ n =>
      rw [collect, next_of_started hs] at hn
      cases hl : s.loop snap cfg n with
      | none =>
        rw [hl] at hn
        cases hn
      | some x =>
        rw [hl] at hn
        refine ⟨x, ⟨n, hl⟩, ?_⟩
        obtain ⟨⟨key, value⟩ | _ | ⟨key, why⟩, s1⟩ := x
        · obtain ⟨r', hr', hrr⟩ := map_eq_some_iff.mp hn
          exact ⟨r', ⟨n, hr'⟩, hrr.symm⟩
        · exact (some.inj hn).symm
        · exact (some.inj hn).symm
  · rintro ⟨⟨res, s1⟩, ⟨n, hn⟩, hc⟩
    cases res with
    | found key value =>
      obtain ⟨r', ⟨m, hm⟩, rfl⟩ := hc
      refine ⟨n + m + 1, ?_⟩
      rw [collect, next_of_started hs, loop_mono (Nat.le_add_right n m) hn]
      exact map_eq_some_iff.mpr ⟨r', collect_mono (Nat.le_add_left m n) hm, rfl⟩
    | exhausted =>
      obtain rfl : r = ([], none) := hc
      exact ⟨n + 1, by rw [collect, next_of_started hs, hn]⟩
    | failed key why =>
      obtain rfl : r = ([], some (key, why)) := hc
      exact ⟨n + 1, by rw [collect, next_of_started hs, hn]⟩

theorem Yields.again
    (hs' : s'.isStarted = true) (hp : Passes snap cfg s none s') (h : Yields snap cfg s' o) :
    Yields snap cfg s o := by
  intro r
  rw [← h r, collect_iff hs, collect_iff hs']
  simp only [hp.loopsTo_again]

theorem Yields.found {value : Value}
    (hp : Passes snap cfg s (some (.found k value)) s') (h : Yields snap cfg s' o) :
    Yields snap cfg s (o.map fun r => ((k, value) :: r.1, r.2)) := by
  intro r
  rw [collect_iff hs]
  simp only [hp.loopsTo_result, exists_eq_left, Concludes, h _, map_eq_some_iff]
  exact exists_congr fun r' => and_congr_right fun _ => eq_comm

theorem yields_exhausted
    (hp : Passes snap cfg s (some .exhausted) s') : Yields snap cfg s (some ([], none)) := by
  intro r
  rw [collect_iff hs]
  simp only [hp.loopsTo_result, exists_eq_left, Concludes, some_inj]
  exact eq_comm

theorem yields_failed {why : ScanFailure} (hp : Passes snap cfg s (some (.failed k why)) s') :
    Yields snap cfg s (some ([], some (k, why))) := by
  intro r
  rw [collect_iff hs]
  simp only [hp.loopsTo_result, exists_eq_left, Concludes, some_inj]
  exact eq_comm

end

theorem yields_none {D : Scanner → Prop} (hstarted : ∀ s, D s → s.isStarted = true)
    (hstep : ∀ s, D s → ∃ o s', Passes snap cfg s o s' ∧ D s' ∧
      ∀ res ∈ o, ∃ key value, res = .found key value) (hs : D s) : Yields snap cfg s none := by
  have hloop : ∀ n s x, D s → s.loop snap cfg n = some x →
      (∃ key value, x.1 = .found key value) ∧ D x.2 := by
    intro n
    induction n with
    | zero => exact fun s x _ hx => absurd hx (by simp [Scanner.loop])
    | succ n ih =>
      intro s x hD hx
      obtain ⟨o, s', hp, hD', hres⟩ := hstep s hD
      rw [Scanner.loop] at hx
      cases hpass : s.pass snap cfg n with
      | none =>
        rw [hpass] at hx
        cases hx
      | some q =>
        obtain rfl := hp.pass_eq hpass
        rw [hpass] at hx
        cases o with
        | none => exact ih s' x hD' hx
        | some res =>
          cases hx
          exact ⟨hres res rfl, hD'⟩
  have hcollect : ∀ n s, D s → s.collect snap cfg n = none := by
    intro n
    induction n with
    | zero => exact fun s _ => rfl
    | succ n ih =>
      intro s hD
      rw [Scanner.collect, next_of_started (hstarted s hD)]
      cases hl : s.loop snap cfg n with
      | none => rfl
      | some x =>
        obtain ⟨⟨key, value, hres⟩, hD'⟩ := hloop n s x hD hl
        obtain ⟨res, s'⟩ := x
        subst hres
        exact congrArg (Option.map _) (ih s' hD')
  intro r
  simp [hcollect _ s hs]

end Mvcc
