/-
The retry loop of the client, and two calls that go through it: `SendToRegion` of
`pkg/client/request_sender.go`, `prewriteRegion` of `committer.go` and `acquirePessimisticLock`
of `txn.go`, and `CompareAndSwap` of `rawkv.go`.

The loop treats every error of its callback as one of the transport: a conflict is sent again
and ends as a text (`conflicts_reach_iff`), and so is a swap whose answer is lost (`honest_iff`).
-/
import Gookv.RawStorage

namespace Retries

open Txntypes StoreRestart Rocks List RawStorage

inductive GoError
  | writeConflict
  | deadlock
  | text (message : String)
  | wrap (message : String) (err : GoError)
  deriving DecidableEq

namespace GoError

def message : GoError → String
  | writeConflict => "txn: write conflict"
  | deadlock => "txn: deadlock"
  | text m => m
  | wrap m err => m ++ ": " ++ err.message

def is : GoError → GoError → Bool
  | wrap _ err, target => err.is target
  | err, target => err = target

end GoError

inductive Attempt (R : Type)
  | cancelled
  | locateFailed (message : String)
  | noConnection
  | answered (resp : R)

inductive Outcome (α : Type)
  | done (a : α)
  | regionError (retriable : Bool) (message : String)
  | failed (err : GoError)

structure Run (σ R α : Type) where
  result : Except GoError α
  sent : List R
  final : σ

section

variable {σ R α : Type} (callback : R → Outcome α) (exhausted : String → GoError)

def sendToRegion : List (σ → Attempt R × σ) → String → σ → Run σ R α
  | [], last, s => ⟨.error (exhausted last), [], s⟩
  | attempt :: rest, last, s =>
    match attempt s with
    | (.cancelled, s) => ⟨.error (exhausted last), [], s⟩
    | (.locateFailed m, s) => ⟨.error (.wrap "locate key" (.text m)), [], s⟩
    | (.noConnection, s) => sendToRegion rest last s
    | (.answered resp, s) =>
      let run : Run σ R α := match callback resp with
        | .done a => ⟨.ok a, [], s⟩
        | .regionError true m => sendToRegion rest m s
        | .regionError false m => ⟨.error (.text ("region error: " ++ m)), [], s⟩
        | .failed err => sendToRegion rest ("grpc: " ++ err.message) s
      { run with sent := resp :: run.sent }

theorem sendToRegion_rule {I : σ → Prop} {J : α → σ → Prop} {E : GoError → Prop}
    (attempts : List (σ → Attempt R × σ)) (last : String) {s : σ}
    (hkeep : ∀ attempt ∈ attempts, ∀ s, I s →
      (∀ resp a, (attempt s).1 = .answered resp → callback resp ≠ .done a) → I (attempt s).2)
    (hdone : ∀ attempt ∈ attempts, ∀ s resp a, I s → (attempt s).1 = .answered resp →
      callback resp = .done a → J a (attempt s).2) (hexhausted : ∀ last, E (exhausted last))
    (hlocate : ∀ m, E (.wrap "locate key" (.text m)))
    (hregion : ∀ m, E (.text ("region error: " ++ m))) (hs : I s) :
    (∀ a, (sendToRegion callback exhausted attempts last s).result = .ok a →
      J a (sendToRegion callback exhausted attempts last s).final) ∧
    ∀ e, (sendToRegion callback exhausted attempts last s).result = .error e → E e := by
  have hstop : ∀ {e : GoError} {s : σ} {sent : List R}, E e →
      (∀ a, (Run.mk (.error e) sent s : Run σ R α).result = .ok a → J a s) ∧
        ∀ e', (Run.mk (.error e) sent s : Run σ R α).result = .error e' → E e' :=
    fun he => ⟨nofun, fun e' h => (Except.error.inj h) ▸ he⟩
  induction attempts generalizing last s with
  | nil => exact hstop (hexhausted last)
  | cons attempt rest ih =>
    have hkeep₁ := hkeep attempt (by simp) s hs
    have hdone₁ := hdone attempt (by simp) s
    have ih := fun last {s : σ} => @ih last s (fun a ha => hkeep a (mem_cons_of_mem _ ha))
      (fun a ha => hdone a (mem_cons_of_mem _ ha))
    rw [sendToRegion]
    rcases hattempt : attempt s with ⟨_ | m | _ | resp, s'⟩
    · exact hstop (hexhausted last)
    · exact hstop (hlocate m)
    · rw [hattempt] at hkeep₁
      exact ih last (hkeep₁ nofun)
    · rw [hattempt] at hkeep₁ hdone₁
      dsimp only
      rcases hcb : callback resp with a | ⟨_ | _, m⟩ | err
      · refine ⟨fun a' ha' => ?_, nofun⟩
        cases ha'
        exact hdone₁ resp a hs rfl hcb
      · exact hstop (hregion m)
      · exact ih m (hkeep₁ fun resp' a h => by cases h; simp [hcb])
      · exact ih _ (hkeep₁ fun resp' a h => by cases h; simp [hcb])

end

def exhausted (maxRetries : ℕ) (key last : String) : GoError :=
  .text ("max retries (" ++ toString maxRetries ++ ") exhausted (last: " ++ last ++ ", key=" ++
    key ++ ")")

/-! ### Conflicts -/

inductive KeyError
  | conflict
  | locked
  | deadlock
  | other (message : String)
  deriving DecidableEq

inductive Response
  | grpc (message : String)
  | regionError (retriable : Bool) (message : String)
  | served (errors : List KeyError)

def Response.errors : Response → List KeyError
  | .served errors => errors
  | _ => []

def KeyError.text : KeyError → String
  | .other m => m
  | .locked => "locked"
  | .deadlock => "deadlock"
  | .conflict => "conflict"

def prewriteCallback : Response → Outcome Unit
  | .grpc m => .failed (.text m)
  | .regionError retriable m => .regionError retriable m
  | .served [] => .done ()
  | .served (.conflict :: _) => .failed .writeConflict
  | .served (.locked :: _) => .failed .writeConflict
  | .served (e :: _) => .failed (.text ("prewrite error: " ++ e.text))

def lockCallback : Response → Outcome Unit
  | .grpc m => .failed (.text m)
  | .regionError retriable m => .regionError retriable m
  | .served [] => .done ()
  | .served (.conflict :: _) => .failed .writeConflict
  | .served (.deadlock :: _) => .failed .deadlock
  | .served (e :: _) => .failed (.text ("pessimistic lock error: " ++ e.text))

/-- What a call returns, and the answers to each of its requests. -/
structure Call where
  err : Option GoError
  requests : List (List Response)

variable (maxRetries : ℕ) (key : String)

def request (callback : Response → Outcome Unit) (attempts : List (Attempt Response)) :
    Run Unit Response Unit :=
  sendToRegion callback (exhausted maxRetries key) (attempts.map fun a s => (a, s)) "" ()

def Run.err {σ R α : Type} (run : Run σ R α) : Option GoError :=
  match run.result with
  | .ok _ => none
  | .error e => some e

def lock (attempts : List (Attempt Response)) : Call :=
  let run := request maxRetries key lockCallback attempts
  ⟨run.err, [run.sent]⟩

/-- `Commit`: the primary's group, then the others in parallel, of whose errors any may come first,
and then a commit that fails with a text or not. -/
def commit (later : Option String) (first : ℕ) (primary : List (Attempt Response))
    (others : List (List (Attempt Response))) : Call :=
  let run := request maxRetries key prewriteCallback primary
  match run.err with
  | some e => ⟨some e, [run.sent]⟩
  | none =>
    let runs := others.map (request maxRetries key prewriteCallback)
    ⟨((runs.filterMap Run.err).rotate first).head?.or (later.map .text),
      run.sent :: runs.map Run.sent⟩

def Call.Reaches (c : Call) : Prop :=
  (∀ sent ∈ c.requests, ∀ resp ∈ sent, .conflict ∈ resp.errors →
      ∃ e, c.err = some e ∧ e.is .writeConflict = true) ∧
    ∀ sent ∈ c.requests, ∀ resp ∈ sent.dropLast, resp.errors = []

/-- The answer ends the loop: success, or a region error that is not retried. -/
def Response.isFinal : Response → Bool
  | .served [] => true
  | .regionError false _ => true
  | _ => false

/-- Nothing is sent any more. -/
def Silent : List (Attempt Response) → Prop
  | .answered _ :: _ => False
  | .noConnection :: rest => Silent rest
  | _ => True

/-- No answer reports a conflict, and one with another error of a key is the last one. -/
def Quiet : List (Attempt Response) → Prop
  | .answered resp :: rest =>
    if resp.errors = [] then resp.isFinal = true ∨ Quiet rest
    else .conflict ∉ resp.errors ∧ Silent rest
  | .noConnection :: rest => Quiet rest
  | _ => True

theorem request_err (callback : Response → Outcome Unit) (attempts : List (Attempt Response))
    {e : GoError} (h : (request maxRetries key callback attempts).err = some e) :
    e.is .writeConflict = false := by
  refine (sendToRegion_rule (I := fun _ => True) (J := fun _ _ => True)
    (E := fun e => e.is .writeConflict = false) callback (exhausted maxRetries key)
    (attempts.map fun a s => (a, s)) "" (s := ()) (fun _ _ _ _ _ => trivial)
    (fun _ _ _ _ _ _ _ _ => trivial) (fun last => ?_) (fun m => ?_) (fun m => ?_) trivial).2 e ?_
  · simp [exhausted, GoError.is]
  · simp [GoError.is]
  · simp [GoError.is]
  · rw [Run.err] at h
    split at h
    · cases h
    · next herr =>
      cases h
      exact herr

theorem commit_err (later : Option String) (first : ℕ) (primary : List (Attempt Response))
    (others : List (List (Attempt Response))) {e : GoError}
    (h : (commit maxRetries key later first primary others).err = some e) :
    e.is .writeConflict = false := by
  rw [commit] at h
  dsimp only at h
  split at h
  · next herr =>
    cases h
    exact request_err maxRetries key _ _ herr
  · rcases Option.or_eq_some_iff.mp h with h | ⟨-, h⟩
    · obtain ⟨run, hrun, herr⟩ := mem_filterMap.mp (mem_rotate.mp (mem_of_head? h))
      obtain ⟨attempts, -, rfl⟩ := mem_map.mp hrun
      exact request_err maxRetries key _ _ herr
    · obtain ⟨m, -, rfl⟩ := Option.map_eq_some_iff.mp h
      rfl

/-- No answer to a request reports a conflict, and none but the last an error of a key. -/
def Clean (sent : List Response) : Prop :=
  (∀ resp ∈ sent, .conflict ∉ resp.errors) ∧ ∀ resp ∈ sent.dropLast, resp.errors = []

/-- The callbacks send an answer with an error of a key again, and take one without for final or
not. -/
structure Retrying (callback : Response → Outcome Unit) : Prop where
  failed : ∀ resp, resp.errors ≠ [] → ∃ e, callback resp = .failed e
  final : ∀ resp, resp.isFinal = true →
    callback resp = .done () ∨ ∃ m, callback resp = .regionError false m
  again : ∀ resp, resp.errors = [] → resp.isFinal = false →
    (∃ e, callback resp = .failed e) ∨ ∃ m, callback resp = .regionError true m

theorem retrying_prewrite : Retrying prewriteCallback := by
  refine ⟨?_, ?_, ?_⟩ <;> rintro (m | ⟨_ | _, m⟩ | (_ | ⟨_ | _ | _ | _, es⟩)) <;>
    simp [Response.errors, Response.isFinal, prewriteCallback]

theorem retrying_lock : Retrying lockCallback := by
  refine ⟨?_, ?_, ?_⟩ <;> rintro (m | ⟨_ | _, m⟩ | (_ | ⟨_ | _ | _ | _, es⟩)) <;>
    simp [Response.errors, Response.isFinal, lockCallback]

section

variable {callback : Response → Outcome Unit} {ended : String → GoError}

theorem sent_eq_nil_iff (attempts : List (Attempt Response)) (last : String) :
    (sendToRegion callback ended (attempts.map fun a s => (a, s)) last ()).sent = [] ↔
      Silent attempts := by
  induction attempts generalizing last with
  | nil => simp [sendToRegion, Silent]
  | cons a rest ih =>
    cases a with
    | noConnection => exact ih last
    | _ => simp [sendToRegion, Silent]

theorem quiet_iff (h : Retrying callback) (attempts : List (Attempt Response)) (last : String) :
    Clean (sendToRegion callback ended (attempts.map fun a s => (a, s)) last ()).sent ↔
      Quiet attempts := by
  induction attempts generalizing last with
  | nil => simp [sendToRegion, Quiet, Clean]
  | cons a rest ih =>
    cases a with
    | cancelled | locateFailed m => simp [sendToRegion, Quiet, Clean]
    | noConnection => exact ih last
    | answered resp =>
      -- an answer after which the loop goes on is put before the rest
      have hgo : ((∃ e, callback resp = .failed e) ∨ ∃ m, callback resp = .regionError true m) →
          ∃ last', (sendToRegion callback ended ((Attempt.answered resp :: rest).map
            fun a s => (a, s)) last ()).sent = resp ::
              (sendToRegion callback ended (rest.map fun a s => (a, s)) last' ()).sent := by
        rintro (⟨e, he⟩ | ⟨m, hm⟩)
        · exact ⟨"grpc: " ++ e.message, by simp [sendToRegion, he]⟩
        · exact ⟨m, by simp [sendToRegion, hm]⟩
      rw [Quiet]
      by_cases herrs : resp.errors = []
      · rw [if_pos herrs]
        by_cases hfinal : resp.isFinal = true
        · rcases h.final resp hfinal with hdone | ⟨m, hm⟩
          · simp [sendToRegion, hdone, hfinal, herrs, Clean]
          · simp [sendToRegion, hm, hfinal, herrs, Clean]
        · obtain ⟨last', hsent⟩ := hgo (h.again resp herrs (by simpa using hfinal))
          rw [or_iff_right hfinal, ← ih last', hsent]
          refine and_congr (by simp [herrs]) ?_
          rcases (sendToRegion callback ended (rest.map fun a s => (a, s)) last' ()).sent with
            _ | ⟨r, rs⟩
          · simp
          · simp [herrs]
      · obtain ⟨last', hsent⟩ := hgo (.inl (h.failed resp herrs))
        rw [if_neg herrs, ← sent_eq_nil_iff rest last', hsent]
        rcases (sendToRegion callback ended (rest.map fun a s => (a, s)) last' ()).sent with
          _ | ⟨r, rs⟩
        · simp [Clean]
        · simp [herrs, Clean]

end

theorem Call.reaches_iff {c : Call} (h : ∀ e, c.err = some e → e.is .writeConflict = false) :
    c.Reaches ↔ ∀ sent ∈ c.requests, Clean sent := by
  constructor
  · rintro ⟨hconflict, hagain⟩ sent hsent
    refine ⟨fun resp hresp hmem => ?_, hagain sent hsent⟩
    obtain ⟨e, he, his⟩ := hconflict sent hsent resp hresp hmem
    rw [h e he] at his
    cases his
  · intro hall
    exact ⟨fun sent hsent resp hresp hmem => absurd hmem ((hall sent hsent).1 resp hresp),
      fun sent hsent => (hall sent hsent).2⟩

/-- **A conflict never reaches the caller as one**: what a lock or a commit promises holds exactly
when the answers to each request that is sent are quiet. -/
theorem conflicts_reach_iff (maxRetries : ℕ) (key : String) (later : Option String) (first : ℕ)
    (primary : List (Attempt Response)) (others : List (List (Attempt Response))) :
    ((lock maxRetries key primary).Reaches ↔ Quiet primary) ∧
      ((commit maxRetries key later first primary others).Reaches ↔ Quiet primary ∧
        ((request maxRetries key prewriteCallback primary).err = none →
          ∀ attempts ∈ others, Quiet attempts)) := by
  constructor
  · rw [Call.reaches_iff fun e he => request_err maxRetries key _ _ he]
    simpa [lock, request] using quiet_iff retrying_lock primary ""
  · rw [Call.reaches_iff fun e he => commit_err maxRetries key later first primary others he, commit]
    have hquiet : ∀ attempts, Clean (request maxRetries key prewriteCallback attempts).sent ↔
        Quiet attempts := fun attempts => quiet_iff retrying_prewrite attempts ""
    cases herr : (request maxRetries key prewriteCallback primary).err with
    | some e | none => simp [hquiet]

/-- A conflict that is reported three times, and at last a text. -/
theorem conflict_retried :
    let c := commit 2 "6b" none 0 (replicate 3 (.answered (.served [.conflict]))) []
    c.requests.map List.length = [3] ∧
      c.err = some (exhausted 2 "6b" "grpc: txn: write conflict") ∧ ¬ c.Reaches := by
  refine ⟨rfl, rfl, fun h => ?_⟩
  obtain ⟨e, he, his⟩ := h.1 _ (mem_singleton_self _) _ (mem_cons_self ..)
    (mem_singleton_self _)
  cases he
  cases his

/-! ### Swaps -/

structure Swap where
  cf : Option CF
  key : Key
  value : Value
  prevValue : Value
  prevNotExist : Bool

inductive SwapResponse
  | grpc (message : String)
  | regionError (retriable : Bool) (message : String)
  | error (message : String)
  | swapped (succeed : Bool) (previousValue : Value)

def swapCallback : SwapResponse → Outcome (Bool × Value)
  | .grpc m => .failed (.text m)
  | .regionError retriable m => .regionError retriable m
  | .error m => .failed (.text m)
  | .swapped succeed previousValue => .done (succeed, previousValue)

/-- The engine, the clock and the contents at each execution, and the number of those that changed
the key. -/
structure Server where
  db : DB
  moments : List (UInt64 × DB)
  changes : ℕ

/-- An execution by the server, after writes of others. -/
structure Execution where
  others : DB → DB
  now : UInt64
  now' : UInt64

inductive Event
  | unserved (attempt : Attempt SwapResponse)
      (unanswered : ∀ succeed v, attempt ≠ .answered (.swapped succeed v))
  | executed (x : Execution) (lost : Option String)

/-- An attempt, after executions of earlier ones whose error was reported before. -/
structure Delivery where
  late : List Execution
  event : Event

variable (w : Swap)

def Execution.run (x : Execution) (s : Server) : Option SwapResult × Server :=
  let db := x.others s.db
  let moments := (x.now, db) :: s.moments
  match RawStorage.compareAndSwap x.now x.now' db w.cf w.key w.value w.prevValue w.prevNotExist
      false 0 with
  | .error _ => (none, { s with db, moments })
  | .ok (r, db') => (some r, ⟨db', moments, s.changes + r.succeed.toNat⟩)

def runLate (late : List Execution) (s : Server) : Server :=
  late.foldl (fun s x => (x.run w s).2) s

def Event.attempt : Event → Server → Attempt SwapResponse × Server
  | .unserved attempt _, s => (attempt, s)
  | .executed x lost, s =>
    match x.run w s with
    | (none, s) => (.answered (.error "raw storage"), s)
    | (some r, s) => (.answered (lost.elim (.swapped r.succeed (r.prevValue.getD [])) .grpc), s)

def compareAndSwap (attempts : List Delivery) (db : DB) : Run Server SwapResponse (Bool × Value) :=
  sendToRegion swapCallback (exhausted maxRetries key)
    (attempts.map fun d s => d.event.attempt w (runLate w d.late s)) "" ⟨db, [], 0⟩

def Server.Had (s : Server) (previous : Value) : Prop :=
  ∃ m ∈ s.moments, ∃ current, RawStorage.get m.1 m.2 w.cf w.key = .ok current ∧
    previous = current.getD []

/-- The answer is right about all executions, also those `after` the call. -/
def Honest (run : Run Server SwapResponse (Bool × Value)) (after : List Execution) : Prop :=
  ∀ r, run.result = .ok r →
    (runLate w after run.final).changes = r.1.toNat ∧ run.final.Had w r.2

/-- None of the executions changes the key. -/
def Harmless : List Execution → Server → Prop
  | [], _ => True
  | x :: late, s => (∀ r ∈ (x.run w s).1, r.succeed = false) ∧ Harmless late (x.run w s).2

/-- No execution changes the key, up to the one whose answer is received and after it. -/
def NoneLost (after : List Execution) : List Delivery → Server → Prop
  | [], _ => True
  | ⟨late, .unserved _ _⟩ :: rest, s =>
    Harmless w late s ∧ NoneLost after rest (runLate w late s)
  | ⟨late, .executed x lost⟩ :: rest, s =>
    Harmless w late s ∧
      if lost = none ∧ (x.run w (runLate w late s)).1 ≠ none then
        Harmless w after (x.run w (runLate w late s)).2
      else
        Harmless w [x] (runLate w late s) ∧ NoneLost after rest (x.run w (runLate w late s)).2

theorem executed_ok {now now' : UInt64} {db db' : DB} {r : SwapResult}
    (h : RawStorage.compareAndSwap now now' db w.cf w.key w.value w.prevValue w.prevNotExist
      false 0 = .ok (r, db')) : RawStorage.get now db w.cf w.key = .ok r.prevValue := by
  rw [RawStorage.compareAndSwap] at h
  cases hget : RawStorage.get now db w.cf w.key with
  | error e =>
    rw [hget] at h
    cases h
  | ok current =>
    rw [hget] at h
    dsimp only at h
    split at h
    · cases hc : RawStorage.commit db (RawStorage.resolveCF w.cf)
        [RawStorage.swapModify now' w.cf w.key w.value false 0] with
      | error e =>
        rw [hc] at h
        cases h
      | ok db₁ =>
        rw [hc] at h
        cases h
        rfl
    · cases h
      rfl

theorem Execution.run_spec (x : Execution) (s : Server) :
    (x.run w s).2.changes = s.changes + ((x.run w s).1.any (·.succeed)).toNat ∧
      ∀ r ∈ (x.run w s).1, (x.run w s).2.Had w (r.prevValue.getD []) := by
  rw [Execution.run]
  split
  · exact ⟨rfl, nofun⟩
  · next r db' hr =>
    refine ⟨rfl, fun r' hr' => ?_⟩
    cases hr'
    exact ⟨_, mem_cons_self .., r.prevValue, executed_ok w hr, rfl⟩

theorem changes_trans {a b c n : ℕ} {P Q : Prop} (hab : a ≤ b ∧ (b = a ↔ P))
    (hbc : b + n ≤ c ∧ (c = b + n ↔ Q)) : a + n ≤ c ∧ (c = a + n ↔ P ∧ Q) := by
  rw [← hab.2, ← hbc.2]
  omega

theorem runLate_changes (late : List Execution) (s : Server) :
    s.changes ≤ (runLate w late s).changes ∧
      ((runLate w late s).changes = s.changes ↔ Harmless w late s) := by
  induction late generalizing s with
  | nil => exact ⟨le_rfl, iff_of_true rfl trivial⟩
  | cons x late ih =>
    have hx : s.changes ≤ (x.run w s).2.changes ∧
        ((x.run w s).2.changes = s.changes ↔ ∀ r ∈ (x.run w s).1, r.succeed = false) := by
      rw [(x.run_spec w s).1]
      cases (x.run w s).1 <;> simp
    exact changes_trans (n := 0) hx (ih (x.run w s).2)

/-- A change is the reported one, or of an execution whose answer is not received. -/
theorem changes_spec {r : Bool × Value} (after : List Execution) (attempts : List Delivery)
    (last : String) (s : Server) :
    let run := sendToRegion swapCallback (exhausted maxRetries key)
      (attempts.map fun d s => d.event.attempt w (runLate w d.late s)) last s
    run.result = .ok r → run.final.Had w r.2 ∧
      s.changes + r.1.toNat ≤ (runLate w after run.final).changes ∧
      ((runLate w after run.final).changes = s.changes + r.1.toNat ↔
        NoneLost w after attempts s) := by
  induction attempts generalizing last s with
  | nil => exact nofun
  | cons d rest ih =>
    obtain ⟨late, event⟩ := d
    have hlate := runLate_changes w late s
    rw [map_cons, sendToRegion]
    cases event with
    | unserved attempt hun =>
      cases attempt with
      | cancelled | locateFailed m => exact nofun
      | noConnection => exact fun hr => (ih _ _ hr).imp_right (changes_trans hlate)
      | answered resp =>
        cases resp with
        | swapped succeed v => exact absurd rfl (hun succeed v)
        | regionError retriable m =>
          cases retriable with
          | false => exact nofun
          | true => exact fun hr => (ih _ _ hr).imp_right (changes_trans hlate)
        | grpc m | error m => exact fun hr => (ih _ _ hr).imp_right (changes_trans hlate)
    | executed x lost =>
      obtain ⟨hchanges, hhad⟩ := x.run_spec w (runLate w late s)
      have hx := runLate_changes w [x] (runLate w late s)
      have hagain := fun last hr => (ih last (x.run w (runLate w late s)).2 hr).imp_right
        fun h => changes_trans hlate (changes_trans hx h)
      rw [NoneLost]
      simp only [Event.attempt]
      rcases hrun : x.run w (runLate w late s) with ⟨_ | res, s'⟩
      · rw [hrun] at hagain
        rw [if_neg (by simp)]
        exact hagain _
      · rw [hrun] at hagain hchanges hhad
        cases lost with
        | some m =>
          rw [if_neg (by simp)]
          exact hagain _
        | none =>
          -- the answer that is taken
          intro hr
          cases hr
          rw [if_pos (by simp)]
          have hafter := runLate_changes w after s'
          rw [show s'.changes = _ from hchanges] at hafter
          exact ⟨hhad res rfl, changes_trans hlate hafter⟩

/-- **An answer is right exactly when no execution changed the key but the one it answers.** -/
theorem honest_iff (maxRetries : ℕ) (key : String) (w : Swap) (attempts : List Delivery)
    (after : List Execution) (db : DB) :
    Honest w (compareAndSwap maxRetries key w attempts db) after ↔
      ∀ r, (compareAndSwap maxRetries key w attempts db).result = .ok r →
        NoneLost w after attempts ⟨db, [], 0⟩ := by
  refine forall₂_congr fun r h => ?_
  obtain ⟨hhad, -, hiff⟩ := changes_spec maxRetries key w after attempts "" ⟨db, [], 0⟩ h
  rw [Nat.zero_add] at hiff
  exact (and_iff_left hhad).trans hiff

/-- The first attempt stores the value and its answer is lost; the second finds the value there
and the swap is reported as failed. -/
theorem swap_reported_failed :
    let w : Swap := ⟨none, [0x6b], [1], [], true⟩
    let run := compareAndSwap 1 "6b" w [⟨[], .executed ⟨id, 0, 0⟩ (some "unavailable")⟩,
      ⟨[], .executed ⟨id, 0, 0⟩ none⟩] Table.empty
    run.result = .ok (false, [1]) ∧ run.final.changes = 1 := by
  refine ⟨?_, ?_⟩ <;> decide +kernel

end Retries
