/-
Why orderly timestamps increase.

All responses so far lie below what is left of the batch taken last.
-/
import Gookv.Tso

namespace Tso

open Function List Node Option State StepSystem

variable {s s' : State} {n : ℕ} {x : Node}

structure RequestOk (sent : List ℕ) (r : Request) : Prop where
  pos : 1 ≤ r.count
  small : r.count < 2 ^ 18
  before : r.before ⊆ sent

structure NodeInv (sent : List ℕ) (responses : List Response) (x : Node) : Prop where
  allocator : x.allocator.logical < 2 ^ 18
  queue : ∀ r ∈ x.queue, RequestOk sent r
  waiting : ∀ w ∈ x.waiting, RequestOk sent w.request ∧ w.batch = batchSize w.request.count
  mailbox : ∀ m ∈ x.mailbox, m.2 < 2 ^ 18
  outbox : x.outbox ⊆ responses

structure BufferOk (responses : List Response) (top : ℕ) (x : Node) (l : ℕ) : Prop where
  logical : x.logical = l
  physical : x.physical < 2 ^ 46
  room : l + x.remain < 2 ^ 18
  above : ∀ r ∈ responses, r.ts ≤ x.physical * 2 ^ 18 + l
  below : x.physical * 2 ^ 18 + l + x.remain ≤ top

structure Core (s : State) : Prop where
  nodes : ∀ n, NodeInv s.sent s.responses (s.nodes n)
  proposed : ∀ b, .tsoAllocate b ∈ s.proposed → b < 2 ^ 18
  committed : ∀ b, .tsoAllocate b ∈ s.committed → b < 2 ^ 18
  sent : ∀ t ∈ s.sent, ∃ r ∈ s.responses, r.ts = t
  top : ∀ r ∈ s.responses, r.ts ≤ s.top
  increasing : Increasing s

structure Inv (s : State) : Prop extends Core s where
  buffer : ∀ n, s.holder = some n → 0 < (s.nodes n).remain →
    ∃ l, BufferOk s.responses s.top (s.nodes n) l

theorem inv_start : Inv start where
  nodes _ :=
    { allocator := Nat.two_pow_pos 18
      queue := fun _ h => absurd h not_mem_nil
      waiting := fun _ h => absurd h (by simp [start, newNode])
      mailbox := fun _ h => absurd h not_mem_nil
      outbox := nil_subset _ }
  buffer _ h := by cases h
  proposed _ h := absurd h not_mem_nil
  committed _ h := absurd h not_mem_nil
  sent _ h := absurd h not_mem_nil
  top _ h := absurd h not_mem_nil
  increasing _ h := absurd h not_mem_nil

variable {cmd : Command} {sent sent' : List ℕ} {r : Request} {w : Wait} {now' : ℕ}

theorem RequestOk.mono (h : RequestOk sent r) (hsub : sent ⊆ sent') : RequestOk sent' r :=
  ⟨h.pos, h.small, Subset.trans h.before hsub⟩

theorem NodeInv.mono {responses responses' : List Response}
    (h : NodeInv sent responses x) (hsent : sent ⊆ sent') (hresp : responses ⊆ responses') :
    NodeInv sent' responses' x where
  allocator := h.allocator
  queue r hr := (h.queue r hr).mono hsent
  waiting w hw := ⟨(h.waiting w hw).1.mono hsent, (h.waiting w hw).2⟩
  mailbox := h.mailbox
  outbox := List.Subset.trans h.outbox hresp

theorem nodes_update {P : Node → Prop} {nodes : ℕ → Node} (hall : ∀ m, P (nodes m)) (hx : P x)
    (m : ℕ) : P (Function.update nodes n x m) :=
  (forall_update_iff nodes fun _ y => P y).mpr ⟨hx, fun m _ => hall m⟩ m

theorem Inv.setNode (h : Inv s) (hx : NodeInv s.sent s.responses x)
    (hbuffer : x.remain = 0 ∨ (x.physical = (s.nodes n).physical ∧
      x.logical = (s.nodes n).logical ∧ x.remain = (s.nodes n).remain)) : Inv (s.setNode n x) where
  nodes := nodes_update h.nodes hx
  buffer m hholder hremain := by
    by_cases hm : m = n
    · subst hm
      simp only [State.setNode, Function.update_self] at hremain ⊢
      rcases hbuffer with hzero | ⟨hphys, hlog, hrem⟩
      · omega
      · obtain ⟨l, hl⟩ := h.buffer m hholder (by omega)
        exact ⟨l, hlog.trans hl.logical, hphys ▸ hl.physical, by rw [hrem]; exact hl.room,
          by rw [hphys]; exact hl.above, by rw [hphys, hrem]; exact hl.below⟩
    · simp only [State.setNode, Function.update_of_ne hm] at hremain ⊢
      exact h.buffer m hholder hremain
  proposed := h.proposed
  committed := h.committed
  sent := h.sent
  top := h.top
  increasing := h.increasing

theorem Core.serve (h : Core s) (hholder : s.holder = some n) {l : ℕ}
    (hx : NodeInv s.sent s.responses x) (hbuf : BufferOk s.responses s.top x l)
    (hr : RequestOk s.sent r) (hcount : r.count ≤ x.remain) : Inv (s.serve n x r) := by
  have hpos := hr.pos
  have hroom := hbuf.room
  have hbelow := hbuf.below
  have hts : x.nextTS r.count = x.physical * 2 ^ 18 + (l + r.count) := by
    rw [Node.nextTS, hbuf.logical, ← Nat.cast_add]
    exact toUint64_eq hbuf.physical (by omega)
  have hsub : s.responses ⊆ s.responses ++ [⟨x.nextTS r.count, r.before⟩] :=
    subset_append_left _ _
  have hmem : ∀ r' ∈ s.responses ++ [⟨x.nextTS r.count, r.before⟩],
      r' ∈ s.responses ∨ r' = ⟨x.nextTS r.count, r.before⟩ := by
    intro r' hr'
    simpa using hr'
  refine ⟨⟨?_, h.proposed, h.committed, ?_, ?_, ?_⟩, ?_⟩
  · refine nodes_update (fun m => (h.nodes m).mono (List.Subset.refl _) hsub) ?_
    refine ⟨hx.allocator, hx.queue, hx.waiting, hx.mailbox, ?_⟩
    exact List.append_subset.mpr ⟨List.Subset.trans hx.outbox hsub, subset_append_right _ _⟩
  · intro t ht
    obtain ⟨r', hr', heq⟩ := h.sent t ht
    exact ⟨r', hsub hr', heq⟩
  · intro r' hr'
    rcases hmem r' hr' with hold | rfl
    · exact h.top r' hold
    · change x.nextTS r.count ≤ s.top
      omega
  · intro r' hr' t ht
    rcases hmem r' hr' with hold | rfl
    · exact h.increasing r' hold t ht
    · -- what was sent before the request came is below the rest of the batch
      obtain ⟨r₀, hr₀, rfl⟩ := h.sent t (hr.before ht)
      have := hbuf.above r₀ hr₀
      change r₀.ts < x.nextTS r.count
      omega
  · intro m hm _
    have hmn : m = n := Option.some_inj.mp (hm.symm.trans hholder)
    subst hmn
    simp only [State.serve, State.setNode, Function.update_self]
    refine ⟨l + r.count, ?_, hbuf.physical, ?_, ?_, ?_⟩
    · simp only [Node.serve, hbuf.logical, Nat.cast_add]
    · simp only [Node.serve]
      omega
    · intro r' hr'
      rcases hmem r' hr' with hold | rfl
      · have := hbuf.above r' hold
        simp only [Node.serve]
        omega
      · exact hts.le
    · simp only [Node.serve]
      omega

theorem Inv.take (h : Inv s) (hw : w ∈ (s.nodes n).waiting)
    (hcaught : CaughtUp s (s.nodes n)) (hphys : (s.nodes n).allocator.physical + 1 < 2 ^ 46)
    (hclock : (s.nodes n).clock + 1 < 2 ^ 46) (hnow' : now' < 2 ^ 46)
    (hx : x.allocator = (s.nodes n).allocator.allocate (s.nodes n).clock now' w.batch) :
    ∃ l, BufferOk s.responses (max s.top x.allocator.value) (x.refill w.batch) l := by
  have hn := h.nodes n
  obtain ⟨hreq, hbatch⟩ := hn.waiting w hw
  have hsmall : w.batch < 2 ^ 18 := by
    have := hreq.small
    rw [hbatch, batchSize, tsoBatchSize]
    omega
  obtain ⟨hlog, hle, hold, hms⟩ := Allocator.allocate_spec hn.allocator hsmall (s.nodes n).clock now'
  have hlt := Allocator.allocate_physical_lt w.batch hphys hclock hnow'
  rw [← hx] at hlog hle hold hms hlt
  have hvalue : x.allocator.value = x.allocator.physical * 2 ^ 18 + x.allocator.logical := rfl
  have hstart : s.top ≤ x.allocator.value - w.batch := by
    rcases hcaught with hc | hc <;> omega
  refine ⟨x.allocator.logical - w.batch, ?_, hlt, ?_, ?_, ?_⟩
  · simp only [refill]
    omega
  · simp only [refill]
    omega
  · intro r hr
    have := h.top r hr
    simp only [refill]
    omega
  · have hend : x.allocator.physical * 2 ^ 18 + (x.allocator.logical - w.batch) + w.batch =
        x.allocator.value := by omega
    exact hend.le.trans (le_max_right _ _)

/-! ### Steps -/

theorem Inv.getTS (h : Inv s) {rest : List Request}
    (hqueue : (s.nodes n).queue = r :: rest) (hC : MayServe s n) :
    Inv (s.getTS n { s.nodes n with queue := rest } r) := by
  have hn := h.nodes n
  have hr : RequestOk s.sent r := hn.queue r (hqueue ▸ mem_cons_self)
  have hrest : ∀ r' ∈ rest, RequestOk s.sent r' :=
    fun r' hr' => hn.queue r' (hqueue ▸ mem_cons_of_mem _ hr')
  unfold State.getTS
  split
  · rename_i hcount
    have hholder : s.holder = some n := hC r (by rw [hqueue]; rfl) hcount
    have hpos := hr.pos
    obtain ⟨l, hl⟩ := h.buffer n hholder (by dsimp only at hcount; omega)
    exact h.toCore.serve hholder ⟨hn.allocator, hrest, hn.waiting, hn.mailbox, hn.outbox⟩
      ⟨hl.logical, hl.physical, hl.room, hl.above, hl.below⟩ hr hcount
  · split
    · refine h.setNode ⟨hn.allocator, hrest, ?_, ?_, hn.outbox⟩ (.inr ⟨rfl, rfl, rfl⟩)
      · intro w hw
        rw [Option.mem_some_iff] at hw
        subst hw
        exact ⟨hr, rfl⟩
      · intro m hm
        rcases List.mem_append.mp hm with hm | hm
        · exact hn.mailbox m hm
        · rw [List.mem_singleton.mp hm]
          have := hr.small
          simp only [batchSize, tsoBatchSize]
          omega
    · exact h.setNode ⟨hn.allocator, hrest, hn.waiting, hn.mailbox, hn.outbox⟩
        (.inr ⟨rfl, rfl, rfl⟩)

theorem mem_waiting_of_called (h : x.called = some w) : w ∈ x.waiting := by
  unfold called at h
  split at h
  · exact (filter_eq_some_iff.mp h).1
  · cases h

theorem applyCommand_logical {a : Allocator} (ha : a.logical < 2 ^ 18)
    (hcmd : ∀ b, cmd = .tsoAllocate b → b < 2 ^ 18) (now now' : ℕ) :
    (a.applyCommand now now' cmd).logical < 2 ^ 18 := by
  cases cmd with
  | tsoAllocate b => exact (Allocator.allocate_spec ha (hcmd b rfl) now now').1
  | other => exact ha

theorem Inv.apply (h : Inv s)
    (hcmd : s.committed[(s.nodes n).applied]? = some cmd) (hC : MayTake s n now') :
    Inv (s.apply n now' cmd) := by
  have hn := h.nodes n
  have hrange : ∀ b, cmd = .tsoAllocate b → b < 2 ^ 18 := by
    rintro b rfl
    exact h.committed b (mem_of_getElem? hcmd)
  have hlogical := applyCommand_logical hn.allocator hrange (s.nodes n).clock now'
  unfold State.apply
  generalize hcalled : (s.nodes n).called = called
  cases called with
  | none =>
    exact h.setNode ⟨hlogical, hn.queue, hn.waiting, hn.mailbox, hn.outbox⟩
      (.inr ⟨rfl, rfl, rfl⟩)
  | some w =>
    have hw := mem_waiting_of_called hcalled
    cases cmd with
    | other =>
      exact h.setNode ⟨hlogical, hn.queue, fun _ hnone => absurd hnone (by simp), hn.mailbox,
        hn.outbox⟩ (.inr ⟨rfl, rfl, rfl⟩)
    | tsoAllocate b =>
      obtain ⟨hown, hcaught, hphys, hclock, hnow'⟩ := hC w hcalled _ hcmd (by simp)
      obtain rfl : b = w.batch := by simpa using hown
      obtain ⟨hreq, hbatch⟩ := hn.waiting w hw
      set x := (s.nodes n).applyCommand now' (.tsoAllocate w.batch)
      obtain ⟨l, hl⟩ := h.take (x := x) hw hcaught hphys hclock hnow' rfl
      have hcore : Core { s with holder := some n, top := max s.top x.allocator.value } :=
        ⟨h.nodes, h.proposed, h.committed, h.sent,
          fun r hr => (h.top r hr).trans (le_max_left _ _), h.increasing⟩
      refine hcore.serve (x := x.refill w.batch) rfl
        ⟨hlogical, hn.queue, fun _ hnone => absurd hnone (by simp [Node.refill]), hn.mailbox,
          hn.outbox⟩ hl hreq ?_
      change w.request.count ≤ w.batch
      rw [hbatch]
      exact le_max_right _ _

theorem Inv.propose (h : Inv s) {id batch : ℕ} {rest : List (ℕ × ℕ)}
    (hmail : (s.nodes n).mailbox = (id, batch) :: rest) : Inv { s.setNode n { s.nodes n with
        mailbox := rest
        pendingProposals := (s.nodes n).pendingProposals ++ [some id] } with
      proposed := s.proposed ++ [.tsoAllocate batch] } := by
  have hn := h.nodes n
  have hset := h.setNode (n := n) (x := { s.nodes n with
    mailbox := rest
    pendingProposals := (s.nodes n).pendingProposals ++ [some id] })
    ⟨hn.allocator, hn.queue, hn.waiting,
      fun m hm => hn.mailbox m (hmail ▸ mem_cons_of_mem _ hm), hn.outbox⟩
    (.inr ⟨rfl, rfl, rfl⟩)
  refine ⟨⟨hset.nodes, ?_, hset.committed, hset.sent, hset.top, hset.increasing⟩, hset.buffer⟩
  intro b hb
  rcases mem_append.mp hb with hb | hb
  · exact h.proposed b hb
  · obtain rfl : b = batch := by simpa using hb
    exact hn.mailbox (id, b) (hmail ▸ mem_cons_self)

theorem Inv.send (h : Inv s) {r : Response} {rest : List Response}
    (hout : (s.nodes n).outbox = r :: rest) :
    Inv { s.setNode n { s.nodes n with outbox := rest } with sent := r.ts :: s.sent } := by
  have hn := h.nodes n
  have hsub : s.sent ⊆ r.ts :: s.sent := subset_cons_self _ _
  have hrest : rest ⊆ s.responses := fun r' hr' => hn.outbox (hout ▸ mem_cons_of_mem _ hr')
  have hset := h.setNode (n := n) (x := { s.nodes n with outbox := rest })
    ⟨hn.allocator, hn.queue, hn.waiting, hn.mailbox, hrest⟩ (.inr ⟨rfl, rfl, rfl⟩)
  refine ⟨⟨fun m => (hset.nodes m).mono hsub (Subset.refl _), hset.proposed, hset.committed,
    ?_, hset.top, hset.increasing⟩, hset.buffer⟩
  intro t ht
  rcases mem_cons.mp ht with rfl | ht
  · exact ⟨r, hn.outbox (hout ▸ mem_cons_self), rfl⟩
  · exact h.sent t ht

/-! ### Runs -/

theorem Inv.step (h : Inv s) {a : Action} (hC : Orderly s a) (hs : step s a = some s') :
    Inv s' := by
  cases a with
  | tick n clock =>
    cases hs
    have hn := h.nodes n
    exact h.setNode ⟨hn.allocator, hn.queue, hn.waiting, hn.mailbox, hn.outbox⟩
      (.inr ⟨rfl, rfl, rfl⟩)
  | setLeader n lead =>
    obtain ⟨-, rfl⟩ := of_guard hs
    have hn := h.nodes n
    exact h.setNode ⟨hn.allocator, hn.queue, hn.waiting, hn.mailbox, hn.outbox⟩ (.inl rfl)
  | openStream n =>
    obtain ⟨-, rfl⟩ := of_guard hs
    have hn := h.nodes n
    exact h.setNode ⟨hn.allocator, hn.queue, hn.waiting, hn.mailbox, hn.outbox⟩
      (.inr ⟨rfl, rfl, rfl⟩)
  | recv n count =>
    obtain ⟨-, rfl⟩ := of_guard hs
    have hn := h.nodes n
    refine h.setNode ⟨hn.allocator, ?_, hn.waiting, hn.mailbox, hn.outbox⟩
      (.inr ⟨rfl, rfl, rfl⟩)
    intro r hr
    rcases mem_append.mp hr with hr | hr
    · exact hn.queue r hr
    · rw [mem_singleton.mp hr]
      have hsmall : count < 2 ^ 18 := hC
      exact ⟨le_max_left _ _, max_lt (by norm_num) hsmall, Subset.refl _⟩
  | getTS n =>
    simp only [Tso.step] at hs
    split at hs
    · rename_i hqueue
      cases hs
      exact h.getTS hqueue hC
    · cases hs
  | propose n accepted =>
    simp only [Tso.step] at hs
    split at hs
    · cases hs
    · rename_i id batch rest hmail
      split at hs
      · cases hs
        exact h.propose hmail
      · cases hs
        have hn := h.nodes n
        refine h.setNode ⟨hn.allocator, hn.queue, ?_, ?_, hn.outbox⟩ (.inr ⟨rfl, rfl, rfl⟩)
        · exact fun w hw => hn.waiting w (filter_eq_some_iff.mp hw).1
        · exact fun m hm => hn.mailbox m (hmail ▸ mem_cons_of_mem _ hm)
  | proposeOther n =>
    cases hs
    have hn := h.nodes n
    have hset := h.setNode (n := n) (x := { s.nodes n with
      pendingProposals := (s.nodes n).pendingProposals ++ [none] })
      ⟨hn.allocator, hn.queue, hn.waiting, hn.mailbox, hn.outbox⟩ (.inr ⟨rfl, rfl, rfl⟩)
    refine ⟨⟨hset.nodes, ?_, hset.committed, hset.sent, hset.top, hset.increasing⟩, hset.buffer⟩
    intro b hb
    exact h.proposed b (by simpa using hb)
  | abort n =>
    cases hs
    have hn := h.nodes n
    exact h.setNode ⟨hn.allocator, hn.queue, fun _ hnone => absurd hnone (by simp), hn.mailbox,
      hn.outbox⟩ (.inr ⟨rfl, rfl, rfl⟩)
  | commit i =>
    obtain ⟨cmd, hcmd, rfl⟩ := map_eq_some_iff.mp hs
    refine ⟨⟨h.nodes, h.proposed, ?_, h.sent, h.top, h.increasing⟩, h.buffer⟩
    intro b hb
    rcases mem_append.mp hb with hb | hb
    · exact h.committed b hb
    · rw [← mem_singleton.mp hb] at hcmd
      exact h.proposed b (mem_of_getElem? hcmd)
  | apply n clock =>
    simp only [Tso.step] at hs
    split at hs
    · obtain ⟨cmd, hcmd, rfl⟩ := map_eq_some_iff.mp hs
      exact h.apply hcmd hC
    · cases hs
  | send n =>
    simp only [Tso.step] at hs
    split at hs
    · cases hs
    · rename_i hout
      cases hs
      exact h.send hout

/-- **Timestamps increase across the cluster** in an orderly run. -/
theorem increasing_of_orderly (h : system.ReachableWhen Orderly s) : Increasing s :=
  (h.invariant (P := Inv) inv_start fun _ _ _ hinv hC hs => hinv.step hC hs).increasing

def firstRun : List Action :=
  [.tick 1 1000, .setLeader 1 true, .openStream 1, .recv 1 1, .getTS 1, .propose 1 true, .commit 0,
    .apply 1 1000, .send 1]

def orderlyRun : List Action :=
  firstRun ++ [.setLeader 1 false, .tick 2 1001, .setLeader 2 true, .openStream 2, .apply 2 1001,
    .recv 2 1, .getTS 2, .propose 2 true, .commit 1, .apply 2 1001, .send 2]

theorem increasing_orderlyRun : ∃ s, system.runWhen Orderly start orderlyRun = some s ∧
      s.sent = [1001 * 2 ^ 18 + 1001, 1000 * 2 ^ 18 + 1] ∧ Increasing s := by
  obtain ⟨s, hs, hsent⟩ : ∃ s, system.runWhen Orderly start orderlyRun = some s ∧
      s.sent = [1001 * 2 ^ 18 + 1001, 1000 * 2 ^ 18 + 1] := ⟨_, rfl, rfl⟩
  exact ⟨s, hs, hsent, increasing_of_orderly (reachableWhen_of_run .start hs)⟩

def behindRun : List Action :=
  firstRun ++ [.setLeader 1 false, .tick 2 1, .setLeader 2 true, .openStream 2, .apply 2 1,
    .recv 2 1, .getTS 2, .propose 2 true, .commit 1, .apply 2 1]

theorem notIncreasing_reachable : ∃ s, system.Reachable s ∧ s.sent = [1000 * 2 ^ 18 + 1] ∧
      (⟨1 * 2 ^ 18 + 1001, [1000 * 2 ^ 18 + 1]⟩ : Response) ∈ s.responses ∧ ¬ Increasing s := by
  obtain ⟨s, hs, hsent, hmem⟩ : ∃ s, system.runFrom start behindRun = some s ∧
      s.sent = [1000 * 2 ^ 18 + 1] ∧
      (⟨1 * 2 ^ 18 + 1001, [1000 * 2 ^ 18 + 1]⟩ : Response) ∈ s.responses :=
    ⟨_, rfl, rfl, by decide⟩
  refine ⟨s, reachable_of_run .start hs, hsent, hmem, fun hinc => ?_⟩
  exact absurd (hinc _ hmem _ (mem_singleton_self _)) (by norm_num)

end Tso
