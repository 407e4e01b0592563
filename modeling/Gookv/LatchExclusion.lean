/-
Mutual exclusion of latches.

The invariant says which slots a command owns: the first `OwnedCount` slots of its lock,
and inside `Release`, where `OwnedCount` is set back only behind the loop, those of them
that the loop has not come to yet.
-/
import Gookv.Latch

namespace Latch

open List StepSystem

variable {size : ℕ} {s s' : State} {c d : CommandID} {action : Action}

def Command.holds (cmd : Command) : List UInt64 :=
  match cmd.phase with
  | .releasing i _ _ => (cmd.lock.requiredHashes.take cmd.lock.ownedCount).drop i
  | _ => cmd.lock.requiredHashes.take cmd.lock.ownedCount

def Command.inRelease (cmd : Command) : Prop := ∃ i w t, cmd.phase = .releasing i w t

structure Command.Sound (size : ℕ) (cmd : Command) : Prop where
  required : cmd.lock.requiredHashes = (genLock size cmd.keys).requiredHashes
  count : cmd.lock.ownedCount ≤ cmd.lock.requiredHashes.length
  acquired : cmd.phase = .acquired → cmd.lock.ownedCount = cmd.lock.requiredHashes.length
  waiting : cmd.phase = .waiting → cmd.lock.ownedCount < cmd.lock.requiredHashes.length

open Command

/-- Locks are as `GenLock` makes them, and slots owned as the commands account for them. -/
structure Owned (size : ℕ) (s : State) : Prop where
  sound : ∀ c, (s.commands c).Sound size
  owner : ∀ c, c ≠ 0 → ∀ x, (s.slots x).owner = c ↔ x ∈ (s.commands c).holds

variable {t : Bool} {cmd : Command} {w : List CommandID} {phase : Phase} {x : UInt64}
  {phase' : Phase} {i : ℕ}

theorem Command.Sound.sorted (h : cmd.Sound size) : cmd.lock.requiredHashes.Pairwise (· < ·) := by
  rw [h.required]
  exact genLock_sorted _

theorem Command.Sound.nodup (h : cmd.Sound size) : cmd.lock.requiredHashes.Nodup :=
  h.sorted.imp fun hlt => ne_of_lt hlt

theorem holds_of_not_inRelease (h : ¬ cmd.inRelease) :
    cmd.holds = cmd.lock.requiredHashes.take cmd.lock.ownedCount := by
  rw [holds]
  split
  · rename_i i w t hphase
    exact absurd ⟨i, w, t, hphase⟩ h
  · rfl

theorem holds_of_releasing (h : cmd.phase = .releasing i w t) :
    cmd.holds = (cmd.lock.requiredHashes.take cmd.lock.ownedCount).drop i := by
  rw [holds, h]

theorem holds_setPhase (hphase : cmd.phase = phase)
    (h : ∀ i w t, phase ≠ .releasing i w t) (h' : ∀ i w t, phase' ≠ .releasing i w t) :
    (cmd.setPhase phase').holds = cmd.holds := by
  rw [holds_of_not_inRelease, holds_of_not_inRelease]
  · rfl
  · rintro ⟨i, w, t, hrel⟩
    exact h i w t (hphase.symm.trans hrel)
  · rintro ⟨i, w, t, hrel⟩
    exact h' i w t hrel

theorem holds_of_outside (hphase : cmd.phase = .idle ∨ cmd.phase = .acquired)
    (h' : ∀ i w t, phase' ≠ .releasing i w t) : (cmd.setPhase phase').holds = cmd.holds := by
  rcases hphase with hphase | hphase <;> exact holds_setPhase hphase (by simp) h'

theorem holds_setPhase_zero (hphase : cmd.phase = phase) (h : ∀ i w t, phase ≠ .releasing i w t) :
    (cmd.setPhase (.releasing 0 w t)).holds = cmd.holds := by
  have hnot : ¬ cmd.inRelease := by
    rintro ⟨i, w, t, hrel⟩
    exact h i w t (hphase.symm.trans hrel)
  rw [holds_of_not_inRelease hnot]
  rfl

theorem Owned.put (h : Owned size s) (hsound : cmd.Sound size)
    (hholds : cmd.holds = (s.commands c).holds) : Owned size (s.put c cmd) where
  sound d := by
    rw [put_commands]
    split
    · exact hsound
    · exact h.sound d
  owner d hd x := by
    rw [put_slots, put_commands, h.owner d hd]
    split
    · rename_i hdc
      rw [hholds, hdc]
    · rfl

theorem Owned.congr (h : Owned size s) (hslots : s'.slots = s.slots)
    (hcommands : s'.commands = s.commands) : Owned size s' := by
  constructor
  · rw [hcommands]
    exact h.sound
  · rw [hcommands, hslots]
    exact h.owner

theorem Owned.setSlot_put {slot : LatchSlot} (h : Owned size s)
    (hc : c ≠ 0) (hsound : cmd.Sound size)
    (hother : ∀ d, d ≠ 0 → d ≠ c → (slot.owner = d ↔ (s.slots x).owner = d))
    (hholds : ∀ y, y ∈ cmd.holds ↔ if y = x then slot.owner = c else y ∈ (s.commands c).holds) :
    Owned size ((s.setSlot x slot).put c cmd) where
  sound d := by
    rw [put_commands]
    split
    · exact hsound
    · exact h.sound d
  owner d hd y := by
    rw [put_slots, put_commands, setSlot_slots]
    by_cases hdc : d = c
    · subst hdc
      rw [if_pos rfl, hholds y]
      split
      · rfl
      · exact h.owner d hd y
    · rw [if_neg hdc, setSlot_commands]
      split
      · rename_i hyx
        rw [hother d hd hdc, hyx, h.owner d hd]
      · exact h.owner d hd y

theorem Command.Sound.setPhase (h : cmd.Sound size)
    (hacquired : phase = .acquired → cmd.lock.ownedCount = cmd.lock.requiredHashes.length)
    (hwaiting : phase = .waiting → cmd.lock.ownedCount < cmd.lock.requiredHashes.length) :
    (cmd.setPhase phase).Sound size :=
  ⟨h.required, h.count, hacquired, hwaiting⟩

/-! ### Every move keeps the invariant -/

theorem want_eq_some (h : cmd.want = some x) :
    cmd.lock.ownedCount < cmd.lock.requiredHashes.length ∧
      cmd.lock.requiredHashes.take (cmd.lock.ownedCount + 1) =
        cmd.lock.requiredHashes.take cmd.lock.ownedCount ++ [x] := by
  rw [want, getElem?_eq_some_iff] at h
  obtain ⟨hlt, hx⟩ := h
  exact ⟨hlt, by rw [take_succ_eq_append_getElem hlt, hx]⟩

theorem owned_of_acquire {blocking : Bool} (h : Owned size s) (hc : c ≠ 0)
    (hphase : (s.commands c).phase = .acquiring blocking) (hwant : (s.commands c).want = some x)
    (howner : (s.slots x).owner = 0 ∨ (s.slots x).owner = c) :
    Owned size ((s.setSlot x { s.slots x with owner := c }).put c
      ((s.commands c).setOwned ((s.commands c).lock.ownedCount + 1))) := by
  have hsound := h.sound c
  obtain ⟨hlt, htake⟩ := want_eq_some hwant
  have hholds : (s.commands c).holds =
      (s.commands c).lock.requiredHashes.take (s.commands c).lock.ownedCount := by
    rw [holds, hphase]
  have hholds' : ((s.commands c).setOwned ((s.commands c).lock.ownedCount + 1)).holds =
      (s.commands c).holds ++ [x] := by
    rw [hholds, ← htake, holds]
    show (match (s.commands c).phase with | .releasing i _ _ => _ | _ => _) = _
    rw [hphase]
    rfl
  refine h.setSlot_put hc ⟨hsound.required, hlt, ?_, ?_⟩ ?_ ?_
  · intro hacq
    exact absurd (hphase.symm.trans hacq) (by simp)
  · intro hwait
    exact absurd (hphase.symm.trans hwait) (by simp)
  · intro d hd hdc
    constructor
    · intro heq
      exact absurd heq.symm hdc
    · rintro rfl
      rcases howner with h0 | h1
      · exact absurd h0 hd
      · exact absurd h1 hdc
  · intro y
    rw [hholds', mem_append, mem_singleton]
    split
    · rename_i hy
      simp [hy]
    · rename_i hy
      simp [hy]

theorem owned_of_free {w' : List CommandID} (h : Owned size s) (hc : c ≠ 0)
    (hphase : (s.commands c).phase = .releasing i w t) (hi : i < (s.commands c).lock.ownedCount)
    (hx : (s.commands c).lock.requiredHashes[i]? = some x) (howner : (s.slots x).owner = c)
    (queue : List CommandID) : Owned size ((s.setSlot x ⟨0, queue⟩).put c
      ((s.commands c).setPhase (.releasing (i + 1) w' t))) := by
  have hsound := h.sound c
  have hholds := holds_of_releasing hphase
  have hholds' : ((s.commands c).setPhase (.releasing (i + 1) w' t)).holds =
      ((s.commands c).lock.requiredHashes.take (s.commands c).lock.ownedCount).drop (i + 1) :=
    rfl
  -- the slot at `i` is the first of those still held, and it is none of the later ones
  have hcons : (s.commands c).holds = x :: ((s.commands c).setPhase (.releasing (i + 1) w' t)).holds
      := by
    obtain ⟨hlt, hx⟩ := List.getElem?_eq_some_iff.mp hx
    have hlt' : i < ((s.commands c).lock.requiredHashes.take
        (s.commands c).lock.ownedCount).length := by
      rw [List.length_take]
      omega
    rw [hholds, hholds', List.drop_eq_getElem_cons hlt', List.getElem_take, hx]
  have hnodup : (s.commands c).holds.Nodup := by
    rw [hholds]
    exact ((List.drop_sublist _ _).trans (List.take_sublist _ _)).nodup hsound.nodup
  rw [hcons, List.nodup_cons] at hnodup
  refine h.setSlot_put hc (hsound.setPhase (by simp) (by simp)) ?_ ?_
  · intro d hd hdc
    constructor
    · intro h0
      exact absurd h0.symm hd
    · intro heq
      exact absurd (heq.symm.trans howner) hdc
  · intro y
    split
    · rename_i hy
      subst hy
      simp [hnodup.1, Ne.symm hc]
    · rename_i hy
      rw [hcons, List.mem_cons]
      simp [hy]

theorem Owned.owner_of_releasing (h : Owned size s)
    (hc : c ≠ 0) (hphase : (s.commands c).phase = .releasing i w t)
    (hi : i < (s.commands c).lock.ownedCount)
    (hx : (s.commands c).lock.requiredHashes[i]? = some x) : (s.slots x).owner = c := by
  rw [h.owner c hc, holds_of_releasing hphase]
  apply mem_of_getElem? (i := 0)
  rw [getElem?_drop, Nat.add_zero, getElem?_take_of_lt hi, hx]

theorem owned_of_move (h : Owned size s) (hc : c ≠ 0) (hmove : Move size s c action s') :
    Owned size s' := by
  have hsound := h.sound c
  cases hmove with
  | genLock keys hphase howned =>
    refine h.put ⟨rfl, Nat.zero_le _, ?_, ?_⟩ ?_
    · intro hacq
      exact absurd (hphase.symm.trans hacq) (by simp)
    · intro hwait
      exact absurd (hphase.symm.trans hwait) (by simp)
    · rw [holds, holds, hphase]
      simp [howned, genLock]
  | acquire hphase =>
    exact h.put (hsound.setPhase (by simp) (by simp)) (holds_of_outside hphase (by simp))
  | acquireBlocking hphase =>
    have hput : Owned size (s.put c { (s.commands c).setPhase (.acquiring true) with
        ch := (s.commands c).ch + 1 }) := by
      refine h.put ⟨hsound.required, hsound.count, ?_, ?_⟩ ?_
      · simp [setPhase]
      · simp [setPhase]
      · show ((s.commands c).setPhase (.acquiring true)).holds = _
        exact holds_of_outside hphase (by simp)
    exact hput.congr rfl rfl
  | complete blocking hphase hwant =>
    have hlen : (s.commands c).lock.requiredHashes.length ≤ (s.commands c).lock.ownedCount := by
      rwa [want, getElem?_eq_none_iff] at hwant
    refine (h.put (hsound.setPhase (fun _ => le_antisymm hsound.count hlen) (by simp))
      (holds_setPhase hphase (by simp) (by simp))).congr rfl rfl
  | take blocking x hphase hwant howner => exact owned_of_acquire h hc hphase hwant howner
  | enqueue blocking x hphase hwant hfree howner =>
    refine h.setSlot_put hc (hsound.setPhase ?_ ?_) (fun d _ _ => Iff.rfl) ?_
    · cases blocking <;> simp
    · exact fun _ => (want_eq_some hwant).1
    · intro y
      rw [holds_setPhase hphase (by simp) (by cases blocking <;> simp), ← h.owner c hc]
      split
      · rename_i hy
        rw [hy]
      · rfl
  | wake hphase hfull =>
    exact (h.put (hsound.setPhase (by simp) (by simp))
      (holds_setPhase hphase (by simp) (by simp))).congr rfl rfl
  | timeout hphase =>
    exact h.put (hsound.setPhase (by simp) (by simp)) (holds_setPhase_zero hphase (by simp))
  | release hphase =>
    refine h.put (hsound.setPhase (by simp) (by simp)) ?_
    rcases hphase with hphase | hphase <;> exact holds_setPhase_zero hphase (by simp)
  | free i w t x hphase hi hx howner => exact owned_of_free h hc hphase hi hx howner _
  | skip i w t x hphase hi hx howner =>
    exact absurd (h.owner_of_releasing hc hphase hi hx) howner
  | endLoop i w t hphase hi =>
    refine h.put ⟨hsound.required, Nat.zero_le _, by simp,
      by simp⟩ ?_
    rw [holds_of_releasing hphase, drop_of_length_le]
    · simp [holds, setPhase, setOwned]
    · rw [length_take]
      omega
  | load id w t hphase =>
    exact h.put (hsound.setPhase (by simp) (by simp)) (holds_setPhase hphase (by simp) (by simp))
  | send id ch w t hphase | finish t hphase =>
    exact (h.put (hsound.setPhase (by simp) (by simp))
      (holds_setPhase hphase (by simp) (by simp))).congr rfl rfl

theorem owned_start (slotCount : ℕ) : Owned (new slotCount) (system slotCount).start where
  sound c := ⟨rfl, Nat.zero_le _, by simp [system], by simp [system]⟩
  owner c hc x := by
    simp [system, holds, Ne.symm hc]

theorem owned_of_reachable {slotCount : ℕ} (h : (system slotCount).Reachable s) :
    Owned (new slotCount) s := by
  refine h.invariant (owned_start slotCount) ?_
  rintro s s' ⟨c, action⟩ hs - hstep
  obtain ⟨hc, hmove⟩ := move_of_step hstep
  exact owned_of_move hs hc hmove

/-! ### Mutual exclusion -/

def ownedPrefix (s : State) (c : CommandID) : ℕ :=
  ((s.commands c).lock.requiredHashes.takeWhile fun x => (s.slots x).owner == c).length

theorem takeWhile_eq_take {α : Type} {p : α → Bool} {l : List α} {n : ℕ} (hnodup : l.Nodup)
    (h : ∀ x, p x = true ↔ x ∈ l.take n) : l.takeWhile p = l.take n := by
  have hdrop : (l.drop n).takeWhile p = [] := by
    cases hcons : l.drop n with
    | nil => rfl
    | cons x xs =>
      have hx : p x = false := by
        rw [← Bool.not_eq_true, h]
        exact disjoint_right.mp (disjoint_take_drop hnodup le_rfl) (by simp [hcons])
      rw [takeWhile_cons, hx]
      rfl
  have happend : (l.take n ++ l.drop n).takeWhile p = l.take n ++ (l.drop n).takeWhile p :=
    takeWhile_append_of_pos fun x hx => (h x).mpr hx
  rwa [take_append_drop, hdrop, append_nil] at happend

theorem ownedPrefix_eq (h : Owned size s) (hc : c ≠ 0) (hnot : ¬ (s.commands c).inRelease) :
    ownedPrefix s c = (s.commands c).lock.ownedCount := by
  have howner : ∀ x, ((s.slots x).owner == c) = true ↔
      x ∈ (s.commands c).lock.requiredHashes.take (s.commands c).lock.ownedCount := by
    intro x
    rw [beq_iff_eq, h.owner c hc, holds_of_not_inRelease hnot]
  rw [ownedPrefix, takeWhile_eq_take (h.sound c).nodup howner, length_take]
  exact min_eq_left (h.sound c).count

structure Exclusion (s : State) : Prop where
  acquired_owns : ∀ c, c ≠ 0 → (s.commands c).phase = .acquired →
    ∀ x ∈ (s.commands c).lock.requiredHashes, (s.slots x).owner = c
  owned_count : ∀ c, c ≠ 0 → ¬ (s.commands c).inRelease →
    (s.commands c).lock.ownedCount = ownedPrefix s c ∧
      ∀ x, (s.slots x).owner = c ↔
        x ∈ (s.commands c).lock.requiredHashes.take (s.commands c).lock.ownedCount
  owned_release : ∀ c, c ≠ 0 → ∀ i w t, (s.commands c).phase = .releasing i w t →
    ∀ x, (s.slots x).owner = c ↔
      x ∈ ((s.commands c).lock.requiredHashes.take (s.commands c).lock.ownedCount).drop i
  disjoint_keys : ∀ c d, c ≠ 0 → d ≠ 0 → c ≠ d → (s.commands c).phase = .acquired →
    (s.commands d).phase = .acquired → ∀ key ∈ (s.commands c).keys, key ∉ (s.commands d).keys

theorem Owned.acquired_owns (h : Owned size s) (hc : c ≠ 0)
    (hacq : (s.commands c).phase = .acquired)
    (hx : x ∈ (s.commands c).lock.requiredHashes) : (s.slots x).owner = c := by
  rw [h.owner c hc, holds, hacq]
  dsimp only
  rwa [(h.sound c).acquired hacq, take_length]

/-- **Latches exclude each other**, in every interleaving of the slot operations. -/
theorem latches_exclude (slotCount : ℕ) (s : State) (h : (system slotCount).Reachable s) :
    Exclusion s := by
  have howned := owned_of_reachable h
  refine ⟨fun c hc hacq x hx => howned.acquired_owns hc hacq hx, ?_, ?_, ?_⟩
  · intro c hc hnot
    refine ⟨(ownedPrefix_eq howned hc hnot).symm, fun x => ?_⟩
    rw [howned.owner c hc, holds_of_not_inRelease hnot]
  · intro c hc i w t hphase x
    rw [howned.owner c hc, holds_of_releasing hphase]
  · intro c d hc hd hne hacq hacq' key hkey hkey'
    -- the slot of the key has one owner
    have hslot : ∀ e, key ∈ (s.commands e).keys →
        slotIdx (new slotCount) key ∈ (s.commands e).lock.requiredHashes := by
      intro e he
      rw [(howned.sound e).required, mem_genLock]
      exact ⟨key, he, rfl⟩
    exact hne ((howned.acquired_owns hc hacq (hslot c hkey)).symm.trans
      (howned.acquired_owns hd hacq' (hslot d hkey')))

theorem latches_exclude_two : ∃ s, (system 4).Reachable s ∧ (s.commands 1).phase = .acquired ∧
      (s.commands 2).phase = .waiting ∧ Exclusion s := by
  have hrun : ((system 4).runFrom (system 4).start
      [(1, .genLock [[7]]), (2, .genLock [[7]]), (1, .acquireBlocking), (1, .run),
        (2, .acquireBlocking), (2, .run), (1, .run)]).map
      (fun s => ((s.commands 1).phase, (s.commands 2).phase)) = some (.acquired, .waiting) := by
    decide
  obtain ⟨s, hs, hphases⟩ := Option.map_eq_some_iff.mp hrun
  have hreach : (system 4).Reachable s := reachable_of_run .start hs
  rw [Prod.mk.injEq] at hphases
  exact ⟨s, hreach, hphases.1, hphases.2, latches_exclude 4 s hreach⟩

theorem ownedCount_stale :
    ∃ s, (system 4).Reachable s ∧ (s.commands 1).lock.ownedCount = 1 ∧ ownedPrefix s 1 = 0 := by
  have hrun : ((system 4).runFrom (system 4).start
      [(1, .genLock [[7]]), (1, .acquireBlocking), (1, .run), (1, .run), (1, .release),
        (1, .run)]).map
      (fun s => ((s.commands 1).lock.ownedCount, ownedPrefix s 1)) = some (1, 0) := by
    decide
  obtain ⟨s, hs, hcounts⟩ := Option.map_eq_some_iff.mp hrun
  rw [Prod.mk.injEq] at hcounts
  exact ⟨s, reachable_of_run .start hs, hcounts.1, hcounts.2⟩

theorem Command.Sound.lt_want {y : UInt64} (h : cmd.Sound size) (hwant : cmd.want = some x)
    (hy : y ∈ cmd.holds) : y < x := by
  have htake : y ∈ cmd.lock.requiredHashes.take cmd.lock.ownedCount := by
    rw [holds] at hy
    split at hy
    · exact mem_of_mem_drop hy
    · exact hy
  have hsorted := h.sorted.sublist (take_sublist (cmd.lock.ownedCount + 1) _)
  rw [(want_eq_some hwant).2, pairwise_append] at hsorted
  exact hsorted.2.2 y htake x (mem_singleton_self x)

/-- The slot that the command wants is owned by the other one. -/
def BlockedBy (s : State) (c d : CommandID) : Prop :=
  d ≠ 0 ∧ d ≠ c ∧ ∃ x, (s.commands c).want = some x ∧ (s.slots x).owner = d

theorem Owned.wants_le (h : Owned size s) (hcd : Relation.TransGen (BlockedBy s) c d) :
    d ≠ 0 ∧ ∃ x, (s.commands c).want = some x ∧ ∃ y ∈ (s.commands d).holds, x ≤ y := by
  induction hcd with
  | single hw =>
    obtain ⟨hd, -, x, hx, howner⟩ := hw
    exact ⟨hd, x, hx, x, (h.owner _ hd x).mp howner, le_rfl⟩
  | tail _ hw ih =>
    obtain ⟨-, x, hx, y, hy, hxy⟩ := ih
    obtain ⟨hd, -, z, hz, howner⟩ := hw
    -- the slots that a command holds are below the one it wants
    exact ⟨hd, x, hx, z, (h.owner _ hd z).mp howner, hxy.trans ((h.sound _).lt_want hz hy).le⟩

theorem Owned.acyclic (h : Owned size s) (c : CommandID) :
    ¬ Relation.TransGen (BlockedBy s) c c := by
  intro hcc
  obtain ⟨-, x, hx, y, hy, hxy⟩ := h.wants_le hcc
  exact absurd hxy (not_le.mpr ((h.sound c).lt_want hx hy))

/-- **Commands never block in a circle**: from each the blocking ends at one that wants no slot
of another. -/
theorem waiting_ends (slotCount : ℕ) (s : { s : State // (system slotCount).Reachable s })
    (c : CommandID) : ∃ d, Relation.ReflTransGen (BlockedBy s) c d ∧
      ∀ x, (s.1.commands d).want = some x → (s.1.slots x).owner = 0 ∨ (s.1.slots x).owner = d := by
  have howned := owned_of_reachable s.2
  have : Finite CommandID := Finite.of_injective UInt64.toBitVec fun _ _ => UInt64.toBitVec_inj.mp
  have : Std.Irrefl (Function.swap (Relation.TransGen (BlockedBy s))) := ⟨howned.acyclic⟩
  -- the commands are finitely many, so that what waits in no circle waits in a well-founded order
  induction c using (Finite.wellFounded_of_trans_of_irrefl
    (Function.swap (Relation.TransGen (BlockedBy s)))).induction with
  | _ c ih =>
    by_cases hwaits : ∃ d, BlockedBy s c d
    · obtain ⟨d, hd⟩ := hwaits
      obtain ⟨e, he, hnext⟩ := ih d (.single hd)
      exact ⟨e, .head hd he, hnext⟩
    · refine ⟨c, .refl, fun x hx => ?_⟩
      by_contra hno
      rw [not_or] at hno
      exact hwaits ⟨_, hno.1, hno.2, x, hx, rfl⟩

/-- A command that waits for the slot of another. -/
theorem waiting_ends_two : ∃ s, (system 4).Reachable s ∧ (s.commands 2).phase = .waiting ∧
    ∃ d, Relation.ReflTransGen (BlockedBy s) 2 d ∧
      ∀ x, (s.commands d).want = some x → (s.slots x).owner = 0 ∨ (s.slots x).owner = d := by
  have hrun : ((system 4).runFrom (system 4).start
      [(1, .genLock [[7]]), (2, .genLock [[7]]), (1, .acquireBlocking), (1, .run),
        (2, .acquireBlocking), (2, .run)]).map (fun s => (s.commands 2).phase) = some .waiting := by
    decide
  obtain ⟨s, hs, hphase⟩ := Option.map_eq_some_iff.mp hrun
  have hreach : (system 4).Reachable s := reachable_of_run .start hs
  exact ⟨s, hreach, hphase, waiting_ends 4 ⟨s, hreach⟩ 2⟩

end Latch
