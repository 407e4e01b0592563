/-
Wake-ups of latches.
-/
import Gookv.LatchExclusion

namespace Latch

open List Option StepSystem

variable {size : ℕ} {s s' : State} {c d e : CommandID} {action : Action} {x : UInt64}

theorem Move.other (h : Move size s c action s') (r : CommandID) (hr : r ≠ c) :
    s'.commands r = s.commands r := by
  cases h <;> simp [hr]

def WaitsFor (s : State) (c : CommandID) (x : UInt64) : Prop :=
  (s.commands c).phase = .waiting ∧ (s.commands c).want = some x

def Command.pending (cmd : Command) : List CommandID :=
  match cmd.phase with
  | .releasing _ wakeUp _ => wakeUp
  | .signalling wakeUp _ _ => wakeUp
  | _ => []

def Command.loaded (cmd : Command) : Option (CommandID × ℕ) :=
  match cmd.phase with
  | .signalling _ loaded _ => loaded
  | _ => none

def Signalled (s : State) (c : CommandID) : Prop :=
  s.full c (s.commands c).ch = true ∨
    ∃ r, c ∈ (s.commands r).pending ∨ (s.commands r).loaded = some (c, (s.commands c).ch)

def TriesFor (s : State) (c : CommandID) (x : UInt64) : Prop :=
  (s.commands c).want = some x ∧
    ((∃ blocking, (s.commands c).phase = .acquiring blocking) ∨
      (s.commands c).phase = .waiting ∧ Signalled s c)

def Served (s : State) : Prop :=
  ∀ x, (s.slots x).owner = 0 → (∃ c, WaitsFor s c x) → ∃ c, TriesFor s c x

def AtRest (s : State) : Prop :=
  ∀ c, (s.commands c).phase = .idle ∨ (s.commands c).phase = .acquired ∨
    (s.commands c).phase = .waiting

structure Wakeful (s : State) : Prop where
  served : Served s
  quiet : (∀ x, (s.slots x).owner = 0) → s.signals = [] → AtRest s →
    ∀ c, (s.commands c).phase ≠ .waiting
  progress : ∀ c, (s.commands c).phase = .waiting →
    (∃ d x, TriesFor s d x) ∨
      ∃ d x, d ≠ 0 ∧ (s.slots x).owner = d ∧ (s.commands d).phase ≠ .waiting

open Command

theorem waitsFor_of_waiting (h : Owned size s) (hphase : (s.commands c).phase = .waiting) :
    ∃ x, WaitsFor s c x := by
  have hlt := (h.sound c).waiting hphase
  exact ⟨_, hphase, getElem?_eq_getElem hlt⟩

theorem quiet_of_served (howned : Owned size s) (h : Served s)
    (hfree : ∀ x, (s.slots x).owner = 0) (hsignals : s.signals = [])
    (hrest : AtRest s) (c : CommandID) : (s.commands c).phase ≠ .waiting := by
  intro hphase
  obtain ⟨x, hx⟩ := waitsFor_of_waiting howned hphase
  -- at rest there is no `Release` that would send a signal
  have hnone : ∀ d, (s.commands d).pending = [] ∧ (s.commands d).loaded = none := by
    intro d
    rcases hrest d with hd | hd | hd <;> simp [pending, loaded, hd]
  obtain ⟨e, -, ⟨blocking, he⟩ | ⟨-, hsig | ⟨r, hr | hr⟩⟩⟩ := h x (hfree x) ⟨c, hx⟩
  · rcases hrest e with hd | hd | hd <;> exact absurd (he.symm.trans hd) (by simp)
  · exact absurd hsig (by simp [State.full, hsignals])
  · rw [(hnone r).1] at hr
    cases hr
  · rw [(hnone r).2] at hr
    cases hr

theorem lt_of_waitsFor {y : UInt64} (howned : Owned size s) (hc : c ≠ 0) (h : WaitsFor s c x)
    (hy : (s.slots y).owner = c) : y < x := by
  obtain ⟨hphase, hwant⟩ := h
  rw [howned.owner c hc, holds, hphase] at hy
  have hsorted := Pairwise.sublist (take_sublist ((s.commands c).lock.ownedCount + 1) _)
    (howned.sound c).sorted
  rw [(want_eq_some hwant).2, pairwise_append] at hsorted
  exact hsorted.2.2 y hy x (mem_singleton_self x)

theorem progress_of_served (howned : Owned size s) (h : Served s)
    (hphase : (s.commands c).phase = .waiting) : (∃ d x, TriesFor s d x) ∨
      ∃ d x, d ≠ 0 ∧ (s.slots x).owner = d ∧ (s.commands d).phase ≠ .waiting := by
  obtain ⟨x, hx⟩ := waitsFor_of_waiting howned hphase
  -- downward induction on the slot: every owner that waits does so for a larger one
  induction hn : 2 ^ 64 - x.toNat using Nat.strong_induction_on generalizing c x with
  | _ n ih =>
    by_cases hfree : (s.slots x).owner = 0
    · obtain ⟨e, he⟩ := h x hfree ⟨c, hx⟩
      exact .inl ⟨e, x, he⟩
    · by_cases hwait : (s.commands (s.slots x).owner).phase = .waiting
      · obtain ⟨y, hy⟩ := waitsFor_of_waiting howned hwait
        have hlt : x < y := lt_of_waitsFor howned hfree hy rfl
        have hbound := y.toNat_lt
        rw [UInt64.lt_iff_toNat_lt] at hlt
        exact ih (2 ^ 64 - y.toNat) (by omega) hwait y hy rfl
      · exact .inr ⟨_, x, hfree, rfl, hwait⟩

theorem wakeful_iff_served (howned : Owned size s) : Wakeful s ↔ Served s :=
  ⟨Wakeful.served, fun h => ⟨h, quiet_of_served howned h, fun _ => progress_of_served howned h⟩⟩

def Stored (s : State) : Prop :=
  ∀ c, (s.commands c).phase = .acquiring true ∨ (s.commands c).phase = .waiting →
    s.waiters c = some (s.commands c).ch

variable {t : Bool} {cmd : Command} {w : List CommandID} {i : ℕ}

theorem Stored.put (h : Stored s)
    (hcmd : cmd.phase = .acquiring true ∨ cmd.phase = .waiting → s.waiters c = some cmd.ch) :
    Stored (s.put c cmd) := by
  intro d
  rw [put_commands, put_waiters]
  split
  · rename_i hd
    subst hd
    exact hcmd
  · exact h d

variable {phase : Phase}

theorem Stored.leave (h : Stored s) (h₁ : phase ≠ .acquiring true)
    (h₂ : phase ≠ .waiting) (ch : Option ℕ) :
    Stored ((s.put c ((s.commands c).setPhase phase)).setWaiter c ch) := by
  have hput : Stored (s.put c ((s.commands c).setPhase phase)) := by
    refine h.put fun hcmd => ?_
    rw [setPhase_phase] at hcmd
    exact absurd hcmd (not_or.mpr ⟨h₁, h₂⟩)
  intro d hd
  have hdc : d ≠ c := by
    rintro rfl
    simp [h₁, h₂] at hd
  rw [setWaiter_waiters, if_neg hdc]
  exact hput d hd

theorem stored_of_move (h : Stored s) (hmove : Move size s c action s') : Stored s' := by
  cases hmove with
  | genLock keys hphase howned =>
    apply h.put
    intro hcmd
    rcases hcmd with hcmd | hcmd <;> exact absurd (hphase.symm.trans hcmd) (by simp)
  | acquire hphase => exact h.put (by simp)
  | acquireBlocking hphase =>
    intro d hd
    simp only [setFull_commands, setWaiter_commands, put_commands, setFull_waiters,
      setWaiter_waiters, put_waiters] at hd ⊢
    split
    · rfl
    · rename_i hdc
      rw [if_neg hdc] at hd
      exact h d hd
  | complete blocking hphase hwant => exact h.leave (by simp) (by simp) _
  | take blocking x hphase hwant howner => exact h.put (h c)
  | enqueue blocking x hphase hwant hfree howner =>
    cases blocking
    · exact h.put (by simp)
    · exact h.put fun _ => h c (.inl hphase)
  | wake hphase hfull => exact h.put fun _ => h c (.inr hphase)
  | timeout hphase | release hphase | free i w t x hphase hi hx howner
  | skip i w t x hphase hi hx howner | endLoop i w t hphase hi | load id w t hphase
  | send id ch w t hphase => exact h.put (by simp)
  | finish t hphase => exact h.leave (by simp) (by simp) _

/-! ### Steps that keep the property -/

theorem pending_eq_nil (hphase : cmd.phase = phase)
    (h₁ : ∀ i w t, phase ≠ .releasing i w t) (h₂ : ∀ w l t, phase ≠ .signalling w l t) :
    cmd.pending = [] ∧ cmd.loaded = none := by
  subst hphase
  rw [pending, loaded]
  constructor
  · split
    · rename_i i w t hphase
      exact absurd hphase (h₁ i w t)
    · rename_i w l t hphase
      exact absurd hphase (h₂ w l t)
    · rfl
  · split
    · rename_i w l t hphase
      exact absurd hphase (h₂ w l t)
    · rfl

theorem Signalled.of_step (h : Signalled s d) (hdc : d ≠ c)
    (hother : ∀ r, r ≠ c → s'.commands r = s.commands r)
    (hfull : s.full d (s.commands d).ch = true → s'.full d (s.commands d).ch = true)
    (hpending : d ∈ (s.commands c).pending → Signalled s' d)
    (hloaded : (s.commands c).loaded = some (d, (s.commands d).ch) → Signalled s' d) :
    Signalled s' d := by
  have hd := hother d hdc
  rcases h with h | ⟨r, h⟩
  · exact .inl (by rw [hd, hfull h])
  · by_cases hrc : r = c
    · subst hrc
      exact h.elim hpending hloaded
    · refine .inr ⟨r, ?_⟩
      rwa [hother r hrc, hd]

theorem TriesFor.of_step (h : TriesFor s d x) (hd : s'.commands d = s.commands d)
    (hsig : (s.commands d).phase = .waiting → Signalled s d → Signalled s' d) :
    TriesFor s' d x := by
  obtain ⟨hwant, hphase⟩ := h
  rw [TriesFor, hd]
  exact ⟨hwant, hphase.imp_right fun hw => ⟨hw.1, hsig hw.1 hw.2⟩⟩

theorem Served.of_step (h : Served s) (hother : ∀ r, r ≠ c → s'.commands r = s.commands r)
    (hsig : ∀ d, d ≠ c → (s.commands d).phase = .waiting → Signalled s d → Signalled s' d)
    (hown : ∀ x, (s'.slots x).owner = 0 → (s.slots x).owner = 0 ∧
      (WaitsFor s' c x → WaitsFor s c x) ∧ (TriesFor s c x → TriesFor s' c x)) : Served s' := by
  rintro x hfree ⟨e, he⟩
  obtain ⟨hfree, hwaits, htries⟩ := hown x hfree
  have hwait : ∃ c, WaitsFor s c x := by
    by_cases hec : e = c
    · subst hec
      exact ⟨e, hwaits he⟩
    · rw [WaitsFor, hother e hec] at he
      exact ⟨e, he⟩
  obtain ⟨d, hd⟩ := h x hfree hwait
  refine ⟨d, ?_⟩
  by_cases hdc : d = c
  · subst hdc
    exact htries hd
  · exact hd.of_step (hother d hdc) (hsig d hdc)

theorem not_triesFor (hphase : (s.commands c).phase = phase)
    (h₁ : ∀ b, phase ≠ .acquiring b) (h₂ : phase ≠ .waiting) : ¬ TriesFor s c x := by
  rintro ⟨-, ⟨b, hb⟩ | ⟨hw, -⟩⟩
  · exact h₁ b (hphase.symm.trans hb)
  · exact h₂ (hphase.symm.trans hw)

theorem not_waitsFor (hphase : (s.commands c).phase = phase)
    (h : phase ≠ .waiting) : ¬ WaitsFor s c x :=
  fun hw => h (hphase.symm.trans hw.1)

theorem Served.of_quiet_step (h : Served s) (hother : ∀ r, r ≠ c → s'.commands r = s.commands r)
    (hsig : ∀ d, d ≠ c → (s.commands d).phase = .waiting → Signalled s d → Signalled s' d)
    (howner : ∀ x, (s'.slots x).owner = (s.slots x).owner) {phase' : Phase}
    (hphase : (s.commands c).phase = phase) (hphase' : (s'.commands c).phase = phase')
    (h₁ : ∀ b, phase ≠ .acquiring b) (h₂ : phase ≠ .waiting) (h₃ : phase' ≠ .waiting) :
    Served s' := by
  refine h.of_step hother hsig fun x hfree => ?_
  rw [howner x] at hfree
  exact ⟨hfree, fun hw => absurd hw (not_waitsFor hphase' h₃),
    fun ht => absurd ht (not_triesFor hphase h₁ h₂)⟩

theorem Signalled.of_idle_step (h : Signalled s d) (hdc : d ≠ c)
    (hother : ∀ r, r ≠ c → s'.commands r = s.commands r)
    (hfull : s.full d (s.commands d).ch = true → s'.full d (s.commands d).ch = true)
    (hphase : (s.commands c).phase = phase)
    (h₁ : ∀ i w t, phase ≠ .releasing i w t) (h₂ : ∀ w l t, phase ≠ .signalling w l t) :
    Signalled s' d := by
  obtain ⟨hpending, hloaded⟩ := pending_eq_nil hphase h₁ h₂
  refine h.of_step hdc hother hfull ?_ ?_
  · rw [hpending]
    intro hd
    cases hd
  · rw [hloaded]
    intro hd
    cases hd

theorem Signalled.of_release_step (h : Signalled s d) (hdc : d ≠ c)
    (hother : ∀ r, r ≠ c → s'.commands r = s.commands r) (hfull : s'.full = s.full)
    (hpending : ∀ id ∈ (s.commands c).pending, id ∈ (s'.commands c).pending)
    (hloaded : (s.commands c).loaded = none) : Signalled s' d := by
  refine h.of_step hdc hother (by rw [hfull]; exact id) (fun hd => ?_) ?_
  · exact .inr ⟨c, .inl (hpending d hd)⟩
  · rw [hloaded]
    intro hd
    cases hd

theorem Served.of_call (h : Served s) (hother : ∀ r, r ≠ c → s'.commands r = s.commands r)
    (hfull : ∀ d, d ≠ c → s'.full d = s.full d)
    (howner : ∀ x, (s'.slots x).owner = (s.slots x).owner)
    (hphase : (s.commands c).phase = .idle ∨ (s.commands c).phase = .acquired)
    (hphase' : (s'.commands c).phase ≠ .waiting) : Served s' := by
  have hcall : ∀ phase, (s.commands c).phase = phase → (∀ b, phase ≠ .acquiring b) →
      phase ≠ .waiting → (∀ i w t, phase ≠ .releasing i w t) →
      (∀ w l t, phase ≠ .signalling w l t) → Served s' := by
    intro phase hphase h₁ h₂ h₃ h₄
    refine h.of_quiet_step hother (fun d hdc _ hsig => ?_) howner hphase rfl h₁ h₂ hphase'
    exact hsig.of_idle_step hdc hother (by rw [hfull d hdc]; exact id) hphase h₃ h₄
  rcases hphase with hphase | hphase
  · exact hcall _ hphase (by simp) (by simp) (by simp) (by simp)
  · exact hcall _ hphase (by simp) (by simp) (by simp) (by simp)

/-! ### Passing signals on -/

def PassesOn (s : State) : CommandID × Action → Prop
  | (c, .timeout) => ∀ x, (s.commands c).want = some x → (s.slots x).owner = 0 →
      (∃ e, e ≠ c ∧ WaitsFor s e x) → ∃ e, e ≠ c ∧ TriesFor s e x
  | (c, .run) => ∀ i w t x, (s.commands c).phase = .releasing i w t →
      i < (s.commands c).lock.ownedCount → (s.commands c).lock.requiredHashes[i]? = some x →
      (∃ e, WaitsFor s e x) →
        (∃ e, TriesFor s e x) ∨ ∃ e, (s.slots x).waitQueue.head? = some e ∧ WaitsFor s e x
  | _ => True

theorem served_of_timeout (h : Served s) (hphase : (s.commands c).phase = .waiting)
    (hpass : PassesOn s (c, .timeout)) :
    Served (s.put c ((s.commands c).setPhase (.releasing 0 [] true))) := by
  have hother : ∀ r, r ≠ c →
      (s.put c ((s.commands c).setPhase (.releasing 0 [] true))).commands r = s.commands r := by
    intro r hr
    simp [hr]
  rintro x hfree ⟨e, he⟩
  have hec : e ≠ c := by
    rintro rfl
    simp [WaitsFor] at he
  rw [WaitsFor, hother e hec] at he
  -- one of the others tries for the slot
  obtain ⟨d, hdc, hd⟩ : ∃ d, d ≠ c ∧ TriesFor s d x := by
    by_cases hwant : (s.commands c).want = some x
    · exact hpass x hwant hfree ⟨e, hec, he⟩
    · obtain ⟨d, hd⟩ := h x hfree ⟨e, he⟩
      refine ⟨d, ?_, hd⟩
      rintro rfl
      exact hwant hd.1
  exact ⟨d, hd.of_step (hother d hdc) fun _ hsig =>
    hsig.of_idle_step hdc hother id hphase (by simp) (by simp)⟩

theorem served_of_free (h : Served s)
    (hphase : (s.commands c).phase = .releasing i w t) (hi : i < (s.commands c).lock.ownedCount)
    (hx : (s.commands c).lock.requiredHashes[i]? = some x) (hpass : PassesOn s (c, .run)) :
    Served ((s.setSlot x ⟨0, (s.slots x).waitQueue.tail⟩).put c
      ((s.commands c).setPhase (.releasing (i + 1)
        (w ++ (s.slots x).waitQueue.head?.toList) t))) := by
  generalize hs' : (s.setSlot x ⟨0, (s.slots x).waitQueue.tail⟩).put c
      ((s.commands c).setPhase (.releasing (i + 1)
        (w ++ (s.slots x).waitQueue.head?.toList) t)) = s'
  have hother : ∀ r, r ≠ c → s'.commands r = s.commands r := by
    intro r hr
    simp [← hs', hr]
  have hpending : (s'.commands c).pending = w ++ (s.slots x).waitQueue.head?.toList := by
    simp [← hs', pending]
  have hsig : ∀ d, d ≠ c → Signalled s d → Signalled s' d := by
    intro d hdc hsig
    refine hsig.of_release_step hdc hother (by rw [← hs']; rfl) ?_
      (by simp [loaded, hphase])
    rw [hpending, pending, hphase]
    exact fun id hid => mem_append_left _ hid
  rintro y hfree ⟨e, he⟩
  have hec : e ≠ c := by
    rintro rfl
    simp [← hs', WaitsFor] at he
  rw [WaitsFor, hother e hec] at he
  have hkeep : ∀ d, TriesFor s d y → ∃ d, TriesFor s' d y := by
    intro d hd
    have hdc : d ≠ c := by
      rintro rfl
      exact not_triesFor hphase (by simp) (by simp) hd
    exact ⟨d, hd.of_step (hother d hdc) fun _ => hsig d hdc⟩
  by_cases hyx : y = x
  · subst hyx
    rcases hpass i w t y hphase hi hx ⟨e, he⟩ with ⟨d, hd⟩ | ⟨d, hhead, hd⟩
    · exact hkeep d hd
    · -- the head of the queue is signalled now
      have hdc : d ≠ c := by
        rintro rfl
        exact not_waitsFor hphase (by simp) hd
      refine ⟨d, ?_⟩
      rw [TriesFor, hother d hdc]
      exact ⟨hd.2, .inr ⟨hd.1, .inr ⟨c, .inl (by rw [hpending, hhead]; simp)⟩⟩⟩
  · have hfree' : (s.slots y).owner = 0 := by
      simpa [← hs', hyx] using hfree
    obtain ⟨d, hd⟩ := h y hfree' ⟨e, he⟩
    exact hkeep d hd

theorem served_of_move (hstored : Stored s) (h : Served s) (hc : c ≠ 0)
    (hpass : PassesOn s (c, action)) (hmove : Move size s c action s') : Served s' := by
  have hother := hmove.other
  cases hmove with
  | genLock keys hphase howned =>
    refine h.of_quiet_step hother (fun d hdc _ hsig => ?_) (fun x => rfl) hphase
      (by simpa using hphase) (by simp) (by simp) (by simp)
    exact hsig.of_idle_step hdc hother id hphase (by simp) (by simp)
  | acquire hphase => exact h.of_call hother (fun _ _ => rfl) (fun _ => rfl) hphase (by simp)
  | acquireBlocking hphase =>
    exact h.of_call hother (fun d hdc => by funext k; simp [hdc]) (fun _ => rfl) hphase
      (by simp)
  | complete blocking hphase hwant =>
    refine h.of_step hother (fun d hdc _ hsig => ?_) fun x hfree => ⟨hfree, ?_, ?_⟩
    · exact hsig.of_idle_step hdc hother id hphase (by simp) (by simp)
    · intro hw
      simp [WaitsFor] at hw
    · intro ht
      exact absurd (hwant.symm.trans ht.1) (by simp)
  | take blocking x hphase hwant howner =>
    refine h.of_step hother (fun d hdc _ hsig => ?_) fun y hfree => ?_
    · exact hsig.of_idle_step hdc hother id hphase (by simp) (by simp)
    · -- the slot that is taken is not free
      have hyx : y ≠ x := by
        rintro rfl
        simp [hc] at hfree
      refine ⟨by simpa [hyx] using hfree, ?_, ?_⟩
      · intro hw
        simp [WaitsFor, setOwned, hphase] at hw
      · intro ht
        exact absurd (some.inj (ht.1.symm.trans hwant)) hyx
  | enqueue blocking x hphase hwant hfree howner =>
    refine h.of_step hother (fun d hdc _ hsig => ?_) fun y hfree' => ?_
    · exact hsig.of_idle_step hdc hother id hphase (by simp) (by simp)
    · have hyx : y ≠ x := by
        rintro rfl
        simp [hfree] at hfree'
      refine ⟨by simpa [hyx] using hfree', ?_, ?_⟩
      · intro hw
        have hwant' : (s.commands c).want = some y := by simpa using hw.2
        exact absurd (some.inj (hwant'.symm.trans hwant)) hyx
      · intro ht
        exact absurd (some.inj (ht.1.symm.trans hwant)) hyx
  | wake hphase hfull =>
    refine h.of_step hother (fun d hdc _ hsig => ?_) fun x hfree => ⟨hfree, ?_, ?_⟩
    · exact hsig.of_idle_step hdc hother (by simp [hdc]) hphase (by simp) (by simp)
    · intro hw
      simp [WaitsFor] at hw
    · intro ht
      exact ⟨by simpa using ht.1, .inl ⟨true, by simp⟩⟩
  | timeout hphase => exact served_of_timeout h hphase hpass
  | release hphase =>
    exact h.of_call hother (fun _ _ => rfl) (fun _ => rfl) hphase (by simp)
  | free i w t x hphase hi hx howner => exact served_of_free h hphase hi hx hpass
  | skip i w t x hphase hi hx howner | endLoop i w t hphase hi =>
    refine h.of_quiet_step hother (fun d hdc _ hsig => ?_) (fun x => rfl) hphase
      (by simp; rfl) (by simp) (by simp) (by simp)
    exact hsig.of_release_step hdc hother rfl
      (by simp [pending, hphase]) (by simp [loaded, hphase])
  | load id w t hphase =>
    refine h.of_quiet_step hother (fun d hdc hwait hsig => ?_) (fun x => rfl) hphase
      (by simp; rfl) (by simp) (by simp) (by simp)
    refine hsig.of_step hdc hother (fun hfull => hfull) (fun hd => .inr ⟨c, ?_⟩) ?_
    · -- a command that waits has its channel in the map
      have hstore := hstored d (.inr hwait)
      rw [pending, hphase] at hd
      rcases mem_cons.mp hd with rfl | hd
      · exact .inr (by simp [loaded, hstore, hdc])
      · exact .inl (by simpa [pending] using hd)
    · rw [loaded, hphase]
      intro hd
      cases hd
  | send id ch w t hphase =>
    refine h.of_quiet_step hother (fun d hdc _ hsig => ?_) (fun x => rfl) hphase
      (by simp; rfl) (by simp) (by simp) (by simp)
    refine hsig.of_step hdc hother (fun hfull => by simp [hfull]) (fun hd => .inr ⟨c, .inl ?_⟩)
      fun hd => .inl ?_
    · rw [pending, hphase] at hd
      simpa [pending] using hd
    · rw [loaded, hphase, some_inj, Prod.mk.injEq] at hd
      simp [hd.1, hd.2, hdc]
  | finish t hphase =>
    refine h.of_quiet_step hother (fun d hdc _ hsig => ?_) (fun x => rfl) hphase
      (by simp; rfl) (by simp) (by simp) (by simp)
    exact hsig.of_release_step hdc hother rfl
      (by simp [pending, hphase]) (by simp [loaded, hphase])

/-! ### Steps that lose a signal -/

theorem not_served_of_timeout (hphase : (s.commands c).phase = .waiting)
    (hpass : ¬ PassesOn s (c, .timeout)) :
    ¬ Served (s.put c ((s.commands c).setPhase (.releasing 0 [] true))) := by
  generalize hs' : s.put c ((s.commands c).setPhase (.releasing 0 [] true)) = s'
  have hother : ∀ r, r ≠ c → s.commands r = s'.commands r := by
    intro r hr
    simp [← hs', hr]
  have hc' : (s'.commands c).phase = .releasing 0 [] true := by simp [← hs']
  simp only [PassesOn, not_forall, not_exists, not_and] at hpass
  obtain ⟨x, hwant, hfree, ⟨e, hec, he⟩, hnone⟩ := hpass
  intro h
  rw [WaitsFor, hother e hec] at he
  obtain ⟨d, hd⟩ := h x (by rw [← hs']; exact hfree) ⟨e, he⟩
  have hdc : d ≠ c := by
    rintro rfl
    exact not_triesFor hc' (by simp) (by simp) hd
  refine hnone d hdc (hd.of_step (hother d hdc) fun _ hsig => ?_)
  refine hsig.of_step hdc hother (by rw [← hs']; exact id) ?_ ?_
  · simp [pending, hc']
  · simp [loaded, hc']

theorem not_served_of_free (hphase : (s.commands c).phase = .releasing i w t)
    (hx : (s.commands c).lock.requiredHashes[i]? = some x) (hpass : ¬ PassesOn s (c, .run)) :
    ¬ Served ((s.setSlot x ⟨0, (s.slots x).waitQueue.tail⟩).put c
      ((s.commands c).setPhase (.releasing (i + 1)
        (w ++ (s.slots x).waitQueue.head?.toList) t))) := by
  generalize hs' : (s.setSlot x ⟨0, (s.slots x).waitQueue.tail⟩).put c
      ((s.commands c).setPhase (.releasing (i + 1)
        (w ++ (s.slots x).waitQueue.head?.toList) t)) = s'
  have hother : ∀ r, r ≠ c → s.commands r = s'.commands r := by
    intro r hr
    simp [← hs', hr]
  have hc' : (s'.commands c).phase =
      .releasing (i + 1) (w ++ (s.slots x).waitQueue.head?.toList) t := by
    simp [← hs']
  simp only [PassesOn, not_forall, not_or, not_exists, not_and] at hpass
  obtain ⟨i', w', t', x', hphase', hi, hx', ⟨e, he⟩, hnone, hhead⟩ := hpass
  obtain ⟨rfl, rfl, rfl⟩ : i = i' ∧ w = w' ∧ t = t' := by
    simpa using hphase.symm.trans hphase'
  obtain rfl : x = x' := some.inj (hx.symm.trans hx')
  have hec : e ≠ c := by
    rintro rfl
    exact not_waitsFor hphase (by simp) he
  intro h
  rw [WaitsFor, hother e hec] at he
  obtain ⟨d, hd⟩ := h x (by simp [← hs']) ⟨e, he⟩
  have hdc : d ≠ c := by
    rintro rfl
    exact not_triesFor hc' (by simp) (by simp) hd
  -- it would be a signal from before, or the one for the head of the queue
  have hwant : (s.commands d).want = some x := by
    rw [hother d hdc]
    exact hd.1
  refine hnone d (hd.of_step (hother d hdc) fun hwait hsig => ?_)
  rw [← hother d hdc] at hwait
  refine hsig.of_step hdc hother (by rw [← hs']; exact id) (fun hmem => ?_) ?_
  · rw [pending, hc'] at hmem
    rcases mem_append.mp hmem with hmem | hmem
    · exact .inr ⟨c, .inl (by rw [pending, hphase]; exact hmem)⟩
    · exact absurd ⟨hwait, hwant⟩ (hhead d (by simpa using hmem))
  · simp [loaded, hc']

theorem not_served_of_move (howned : Owned size s) (hc : c ≠ 0)
    (hpass : ¬ PassesOn s (c, action)) (hmove : Move size s c action s') : ¬ Served s' := by
  -- a step inside of a call that matters is one of the loop of `Release`
  have hrelease : action = .run → ∃ i w t x, (s.commands c).phase = .releasing i w t ∧
      i < (s.commands c).lock.ownedCount ∧
      (s.commands c).lock.requiredHashes[i]? = some x := by
    rintro rfl
    simp only [PassesOn, not_forall] at hpass
    obtain ⟨i, w, t, x, hphase, hi, hx, -⟩ := hpass
    exact ⟨i, w, t, x, hphase, hi, hx⟩
  have hother : ∀ phase, action = .run → (s.commands c).phase = phase →
      ∃ i w t, phase = .releasing i w t := by
    intro phase haction hphase
    obtain ⟨i, w, t, x, hrel, -⟩ := hrelease haction
    exact ⟨i, w, t, hphase.symm.trans hrel⟩
  cases hmove with
  | genLock keys hphase howned | acquire hphase | acquireBlocking hphase | release hphase =>
    exact absurd trivial hpass
  | timeout hphase => exact not_served_of_timeout hphase hpass
  | free i w t x hphase hi hx howner => exact not_served_of_free hphase hx hpass
  | skip i w t x hphase hi hx howner =>
    -- the command owns the slot it comes to
    exact absurd (howned.owner_of_releasing hc hphase hi hx) howner
  | endLoop i w t hphase hi =>
    obtain ⟨i', w', t', x, hrel, hlt, -⟩ := hrelease rfl
    obtain ⟨rfl, -⟩ : i = i' ∧ w = w' ∧ t = t' := by simpa using hphase.symm.trans hrel
    omega
  | complete blocking hphase hwant | take blocking x hphase hwant howner
  | enqueue blocking x hphase hwant hfree howner | wake hphase hfull | load id w t hphase
  | send id ch w t hphase | finish t hphase => simpa using hother _ rfl hphase

structure Inv (size : ℕ) (s : State) : Prop where
  owned : Owned size s
  stored : Stored s
  served : Served s

theorem inv_start (slotCount : ℕ) : Inv (new slotCount) (system slotCount).start where
  owned := owned_start slotCount
  stored c hc := by simp [system] at hc
  served := by
    rintro x - ⟨c, hc, -⟩
    simp [system] at hc

/-- **No wake-up is lost in a run iff all its steps pass the signal on**: then, and only
then, after every step someone tries for each free slot that is waited for, nobody is left
blocked when everything has come to rest, and there is no deadlock. -/
theorem wakeups_kept_iff (slotCount : ℕ) (actions : List (CommandID × Action)) :
    (system slotCount).AlwaysAfter Wakeful (system slotCount).start actions ↔
      (system slotCount).Meets PassesOn (system slotCount).start actions := by
  refine alwaysAfter_iff (I := Inv (new slotCount)) ?_ ?_ (inv_start slotCount) actions
  · rintro s s' ⟨c, action⟩ hinv hpass hstep
    obtain ⟨hc, hmove⟩ := move_of_step hstep
    have howned := owned_of_move hinv.owned hc hmove
    have hserved := served_of_move hinv.stored hinv.served hc hpass hmove
    exact ⟨⟨howned, stored_of_move hinv.stored hmove, hserved⟩,
      (wakeful_iff_served howned).mpr hserved⟩
  · rintro s s' ⟨c, action⟩ hinv hpass hstep hwakeful
    obtain ⟨hc, hmove⟩ := move_of_step hstep
    exact not_served_of_move hinv.owned hc hpass hmove hwakeful.served

theorem commands_of_run {slotCount : ℕ} {actions : List (CommandID × Action)}
    (h : (system slotCount).runFrom s actions = some s') (hc : c ∉ actions.map Prod.fst) :
    s'.commands c = s.commands c := by
  induction actions generalizing s with
  | nil =>
    rw [runFrom, runWhen, some_inj] at h
    rw [h]
  | cons a actions ih =>
    rw [runFrom, runWhen, if_pos trivial] at h
    obtain ⟨s₁, hstep, hrun⟩ := bind_eq_some_iff.mp h
    rw [map_cons, mem_cons, not_or] at hc
    rw [ih hrun hc.2, (move_of_step hstep).2.other c hc.1]

theorem wakeup_lost :
    ∃ s, (system 1).Reachable s ∧ (∀ x, (s.slots x).owner = 0) ∧ s.signals = [] ∧ AtRest s ∧
      (s.commands 3).phase = .waiting ∧ ¬ Wakeful s := by
  have hrun : ((system 1).runFrom (system 1).start
      [(1, .genLock [[7]]), (2, .genLock [[7]]), (3, .genLock [[7]]),
        (1, .acquireBlocking), (1, .run), (1, .run),
        (2, .acquireBlocking), (2, .run), (3, .acquireBlocking), (3, .run),
        (2, .timeout), (2, .run), (2, .run),
        (1, .release), (1, .run), (1, .run), (1, .run), (1, .run)]).map
      (fun s => (s.signals, [1, 2, 3].map fun c =>
        ((s.commands c).phase, (s.commands c).lock.ownedCount))) =
      some ([], [(.idle, 0), (.idle, 0), (.waiting, 0)]) := by
    decide
  obtain ⟨s, hs, hfinal⟩ := map_eq_some_iff.mp hrun
  have hreach : (system 1).Reachable s := reachable_of_run .start hs
  simp only [Prod.mk.injEq, map_cons, map_nil, cons.injEq] at hfinal
  obtain ⟨hsignals, ⟨h₁, h₁'⟩, ⟨h₂, h₂'⟩, ⟨h₃, h₃'⟩, -⟩ := hfinal
  -- the other commands are as they were at the start
  have hcases : ∀ c, (s.commands c).lock.ownedCount = 0 ∧
      ((s.commands c).phase = .idle ∨ (s.commands c).phase = .waiting) := by
    intro c
    by_cases hc : c ∈ ([1, 2, 3] : List CommandID)
    · simp only [mem_cons, not_mem_nil, or_false] at hc
      rcases hc with rfl | rfl | rfl
      · exact ⟨h₁', .inl h₁⟩
      · exact ⟨h₂', .inl h₂⟩
      · exact ⟨h₃', .inr h₃⟩
    · have hstart : s.commands c = (system 1).start.commands c := by
        simp only [mem_cons, not_or] at hc
        exact commands_of_run hs (by simp [hc])
      rw [hstart]
      exact ⟨rfl, .inl rfl⟩
  have hfree : ∀ x, (s.slots x).owner = 0 := by
    intro x
    by_contra hne
    have hmem := ((owned_of_reachable hreach).owner _ hne x).mp rfl
    obtain ⟨hcount, hphase⟩ := hcases (s.slots x).owner
    rw [holds_of_not_inRelease, hcount] at hmem
    · cases hmem
    · rintro ⟨i, w, t, hrel⟩
      rw [hrel] at hphase
      simp at hphase
  have hrest : AtRest s := fun c => (hcases c).2.imp_right .inr
  exact ⟨s, hreach, hfree, hsignals, hrest, h₃, fun h => h.quiet hfree hsignals hrest 3 h₃⟩

end Latch
