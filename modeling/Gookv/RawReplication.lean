/-
Raw writes and the logs of the regions: the raw handlers of `internal/server/server.go`.
-/
import Gookv.RegionContext
import Gookv.RawStorage

namespace RawReplication

open Txntypes Metapb Codec RegionContext Rocks Function List Option
open StoreRestart hiding Peer step start system State Action
open RawStorage (SwapResult resolveCF putModify deleteModify)
open RegionWrites (modifiesToRequests)
open Routing (Layout resolveRegionID routingKey groupModifiesByRegion)

inductive RawRequest
  | rawPut (cf : Option CF) (key : Key) (value : Value) (ttl : UInt64)
  | rawDelete (cf : Option CF) (key : Key)
  | rawBatchPut (cf : Option CF) (pairs : List (Key × Value)) (ttls : List UInt64) (ttl : UInt64)
  | rawBatchDelete (cf : Option CF) (keys : List Key)
  | rawDeleteRange (cf : Option CF) (startKey endKey : Key)
  | rawCompareAndSwap (cf : Option CF) (key value previousValue : Key) (previousNotExist : Bool)
      (isDelete : Bool) (ttl : UInt64)
  deriving DecidableEq

structure Call where
  context : Option Context := none
  request : RawRequest
  now : ℕ → UInt64 := fun _ => 0
  orders : List (List Region) := []

def Call.iterate (call : Call) (peers : List HostedPeer) (i : ℕ) : List Region :=
  call.orders.getD i (peers.map HostedPeer.region)

inductive Response
  | ok
  | error (e : RawStorage.Error)
  | swapped (result : SwapResult)
  deriving DecidableEq

structure Served where
  proposals : List (ℕ × List Modify) := []
  db : DB
  response : Option Response := none

def resolveBatchTTLs (ttls : List UInt64) (uniformTTL : UInt64) (nPairs : ℕ) : List UInt64 :=
  if ttls.length = nPairs then ttls
  else if ttls.length = 1 then List.replicate nPairs (ttls.getD 0 0)
  else if 0 < uniformTTL then List.replicate nPairs uniformTTL
  else []

def proposeModifiesToRegions (iterate : ℕ → List Region) (modifies : List Modify) :
    List (ℕ × List Modify) :=
  let regionIDs := modifies.zipIdx.map fun (m, i) => resolveRegionID (iterate i) (routingKey m)
  regionIDs.dedup.map fun regionID => (regionID, groupModifiesByRegion iterate modifies regionID)

def batchPutModifies (now : ℕ → UInt64) (cf : Option CF) (pairs : List (Key × Value))
    (ttls : List UInt64) : List Modify :=
  pairs.zipIdx.map fun (p, i) => putModify (now i) cf p.1 p.2 (some (ttls.getD i 0))

def directWrite (db : DB) : Except RawStorage.Error DB → Served
  | .error e => { db, response := some (.error e) }
  | .ok db' => { db := db', response := some .ok }

def directSwap (db : DB) : Except RawStorage.Error (SwapResult × DB) → Served
  | .error e => { db, response := some (.error e) }
  | .ok (result, db') => { db := db', response := some (.swapped result) }

def validated (peers : List HostedPeer) (context : Option Context) (key : Key) (served : Served) :
    Except RegionError Served :=
  match validateRegionContext peers context (present key) with
  | some e => .error e
  | none => .ok served

def serve (peers : List HostedPeer) (db : DB) (call : Call) : Except RegionError Served :=
  match call.request with
  | .rawPut cf key value ttl =>
    validated peers call.context key
      { db
        proposals := [(resolveRegionID (call.iterate peers 0) key,
          [putModify (call.now 0) cf key value (some ttl)])] }
  | .rawDelete cf key =>
    validated peers call.context key
      { db, proposals := [(resolveRegionID (call.iterate peers 0) key, [deleteModify cf key])] }
  | .rawBatchPut cf pairs ttls ttl =>
    .ok { db
          proposals := proposeModifiesToRegions (call.iterate peers)
            (batchPutModifies call.now cf pairs (resolveBatchTTLs ttls ttl pairs.length)) }
  | .rawBatchDelete cf keys =>
    .ok { db, proposals := proposeModifiesToRegions (call.iterate peers) (keys.map (deleteModify cf)) }
  | .rawDeleteRange cf startKey endKey =>
    validated peers call.context startKey
      (directWrite db (RawStorage.deleteRange db cf startKey endKey))
  | .rawCompareAndSwap cf key value previousValue previousNotExist isDelete ttl =>
    validated peers call.context key
      (directSwap db (RawStorage.compareAndSwap (call.now 0) (call.now 1) db cf key value
        previousValue previousNotExist isDelete ttl))

def applyEntry (db : DB) (requests : List Request) : DB :=
  if requests = [] then db
  else if requestsToModifies requests = [] then db
  else applyModifies db (requestsToModifies requests)

/-! ### The cluster -/

structure Store where
  peers : List HostedPeer
  applied : ℕ → ℕ := fun _ => 0
  db : DB := Table.empty

structure State where
  stores : ℕ → Store
  log : ℕ → List (List Request) := fun _ => []
  calls : List (ℕ × ℕ × List Modify) := []
  pending : List (ℕ × List Request) := []

inductive Action
  | serve (store : ℕ) (call : Call)
  | propose (n : ℕ)
  | commit (n : ℕ)
  | apply (store regionID : ℕ)
  | setLeader (store regionID : ℕ) (isLeader : Bool) (leaderPeer : Option Peer)

def State.setStore (s : State) (id : ℕ) (store : Store) : State :=
  { s with stores := update s.stores id store }

def HostedPeer.setLeader (regionID : ℕ) (isLeader : Bool) (leaderPeer : Option Peer)
    (p : HostedPeer) : HostedPeer :=
  if p.region.id = regionID then { p with isLeader, leaderPeer } else p

@[simp] theorem HostedPeer.setLeader_region (regionID : ℕ) (isLeader : Bool)
    (leaderPeer : Option Peer) (p : HostedPeer) :
    (HostedPeer.setLeader regionID isLeader leaderPeer p).region = p.region := by
  rw [HostedPeer.setLeader]
  split <;> rfl

def step (s : State) : Action → Option State
  | .serve id call =>
    if ∀ order ∈ call.orders, order.Perm ((s.stores id).peers.map HostedPeer.region) then
      match serve (s.stores id).peers (s.stores id).db call with
      | .error _ => some s
      | .ok served =>
        some { s.setStore id { s.stores id with db := served.db } with
          calls := s.calls ++ served.proposals.map fun p => (id, p.1, p.2) }
    else none
  | .propose n =>
    s.calls[n]?.map fun (id, regionID, modifies) =>
      let s := { s with calls := s.calls.eraseIdx n }
      match proposeCheck (s.stores id).peers regionID with
      | some _ => s
      | none => { s with pending := s.pending ++ [(regionID, modifiesToRequests modifies)] }
  | .commit n =>
    s.pending[n]?.map fun (regionID, requests) =>
      { s with
        log := update s.log regionID (s.log regionID ++ [requests])
        pending := s.pending.eraseIdx n }
  | .apply id regionID =>
    let store := s.stores id
    if getPeer store.peers regionID = none then none
    else
      (s.log regionID)[store.applied regionID]?.map fun requests =>
        s.setStore id { store with
          applied := update store.applied regionID (store.applied regionID + 1)
          db := applyEntry store.db requests }
  | .setLeader id regionID isLeader leaderPeer =>
    some (s.setStore id { s.stores id with
      peers := (s.stores id).peers.map (HostedPeer.setLeader regionID isLeader leaderPeer) })

def start (peers : ℕ → List HostedPeer) : State := { stores := fun id => { peers := peers id } }

def system (peers : ℕ → List HostedPeer) : StepSystem State Action := ⟨start peers, step⟩

def Owns (r : Region) (cf : CF) (key : Key) : Prop :=
  cf ∈ dataCFs ∧ r.contains (encodeBytes key)

instance (r : Region) (cf : CF) (key : Key) : Decidable (Owns r cf key) :=
  inferInstanceAs (Decidable (_ ∧ _))

def replay (entries : List (List Request)) (cf : CF) (key : Key) : Option Value :=
  (LastWrite (entryWrite cf key) entries).getD none

def Store.DeterminedBy (store : Store) (log : ℕ → List (List Request)) : Prop :=
  ∀ p ∈ store.peers, ∀ cf key, Owns p.region cf key →
    get store.db cf key = replay ((log p.region.id).take (store.applied p.region.id)) cf key

structure Replicated (s : State) : Prop where
  determined : ∀ id, (s.stores id).DeterminedBy s.log
  same : ∀ id id', ∀ p ∈ (s.stores id).peers, ∀ p' ∈ (s.stores id').peers, p.region = p'.region →
    (s.log p.region.id).take ((s.stores id).applied p.region.id) =
      (s.log p.region.id).take ((s.stores id').applied p.region.id) →
    ∀ cf key, Owns p.region cf key →
      get (s.stores id).db cf key = get (s.stores id').db cf key

def Store.Keeps (store : Store) (among : Region → Prop) (db : DB) : Prop :=
  ∀ p ∈ store.peers, among p.region → ∀ cf key, Owns p.region cf key →
    get db cf key = get store.db cf key

/-- A request finds nothing to write past the log: a deleted range has no record of a hosted
region, and a swap that would match has no hosted key or writes what is stored. -/
def Spares (store : Store) (call : Call) : Prop :=
  match call.request with
  | .rawDeleteRange cf startKey endKey =>
    validateRegionContext store.peers call.context (present startKey) = none →
      ∀ p ∈ store.peers, ∀ key, Owns p.region (resolveCF cf) key → startKey ≤ key → key < endKey →
        get store.db (resolveCF cf) key = none
  | .rawCompareAndSwap cf key value previousValue previousNotExist isDelete ttl =>
    validateRegionContext store.peers call.context (present key) = none →
      RawStorage.swapMatches ((get store.db (resolveCF cf) key).bind
        (RawStorage.visible (call.now 0))) previousValue previousNotExist →
      ∀ p ∈ store.peers, Owns p.region (resolveCF cf) key → get store.db (resolveCF cf) key =
        if isDelete then none else some (RawStorage.encodeValueWithTTL (call.now 1) value ttl)
  | _ => True

/-- An entry writes to no key of another hosted region, or only what is stored there. -/
def Inside (store : Store) (regionID : ℕ) (requests : List Request) : Prop :=
  ∀ p ∈ store.peers, p.region.id ≠ regionID → ∀ cf key, Owns p.region cf key →
    ∀ v, entryWrite cf key requests = some v → get store.db cf key = v

def Undisturbed (s : State) : Action → Prop
  | .serve id call => Spares (s.stores id) call
  | .apply id regionID => ∀ requests,
    (s.log regionID)[(s.stores id).applied regionID]? = some requests →
      Inside (s.stores id) regionID requests
  | .propose _ | .commit _ | .setLeader .. => True

theorem get_applyEntry (db : DB) (requests : List Request) :
    get (applyEntry db requests) = StoreRestart.applyEntry (get db) requests := by
  rw [applyEntry, StoreRestart.applyEntry]
  split
  · rfl
  · split
    · rfl
    · exact view_applyModifies db _

theorem replay_concat (entries : List (List Request)) (requests : List Request) (cf : CF)
    (key : Key) : replay (entries ++ [requests]) cf key =
      (entryWrite cf key requests).getD (replay entries cf key) := by
  rw [replay, replay, LastWrite.append, LastWrite.cons, LastWrite.nil, none_or]
  cases entryWrite cf key requests <;> rfl

/-! ### What a handler writes past the log -/

section
variable {db : DB} {cf : Option CF} {peers : List HostedPeer} {context : Option Context} {key : Key}

theorem validated_eq_ok {served served' : Served} :
    validated peers context key served = .ok served' ↔
      validateRegionContext peers context (present key) = none ∧ served = served' := by
  unfold validated
  cases validateRegionContext peers context (present key) <;> simp

theorem isSome_cfPrefix {cf : CF} (h : cf ∈ dataCFs) : (cfPrefix cf).isSome = true := by
  cases cf <;> first | rfl | simp [dataCFs] at h

theorem commit_single (db : DB) (cf' : CF) {m : Modify} (hm : (cfPrefix m.cf).isSome = true) :
    ∃ db', RawStorage.commit db cf' [m] = .ok db' ∧ ∀ cf key,
      get db' cf key = (m.writeAt cf key).getD (get db cf key) := by
  have hsome : (batchOps db [m]).isSome = true := by
    rw [batchOps_isSome, all_cons, all_nil, Bool.and_true, hm]
  obtain ⟨db', hdb'⟩ := isSome_iff_exists.mp hsome
  refine ⟨db', by rw [RawStorage.commit, hdb'], fun cf key => ?_⟩
  rw [get_batchOps hdb', LastWrite.cons, LastWrite.nil, none_or]

theorem commit_refused {m : Modify} {cf' : CF} (hm : (cfPrefix m.cf).isSome = false) :
    RawStorage.commit db cf' [m] = .error (.cfNotFound cf') := by
  have hnone : (batchOps db [m]).isSome = false := by
    rw [batchOps_isSome, all_cons, hm, Bool.false_and]
  rw [RawStorage.commit, isSome_eq_false_iff.mp hnone |> isNone_iff_eq_none.mp]

theorem get_deleteRange (cf' : CF) (hcf : cf' ∈ dataCFs) (startKey endKey k : Key) :
    get (directWrite db (RawStorage.deleteRange db cf startKey endKey)).db cf' k =
      if cf' = resolveCF cf ∧ startKey ≤ k ∧ k < endKey then none else get db cf' k := by
  cases hm : (cfPrefix (resolveCF cf)).isSome with
  | true =>
    obtain ⟨db', hdb', hget⟩ := commit_single db (resolveCF cf)
      (m := .deleteRange (resolveCF cf) startKey endKey) hm
    rw [RawStorage.deleteRange, hdb', directWrite, hget, Modify.writeAt]
    simp only [not_lt, eq_comm (a := resolveCF cf)]
    split <;> rfl
  | false =>
    rw [RawStorage.deleteRange, commit_refused (m := .deleteRange (resolveCF cf) startKey endKey) hm,
      directWrite, if_neg]
    rintro ⟨rfl, -⟩
    rw [isSome_cfPrefix hcf] at hm
    cases hm

theorem get_compareAndSwap (now now' : UInt64) (value prev : Value) (prevNotExist isDelete : Bool)
    (ttl : UInt64) (cf' : CF) (hcf : cf' ∈ dataCFs) (k : Key) :
    get (directSwap db (RawStorage.compareAndSwap now now' db cf key value prev prevNotExist
        isDelete ttl)).db cf' k =
      if cf' = resolveCF cf ∧ k = key ∧ RawStorage.swapMatches
          ((get db (resolveCF cf) key).bind (RawStorage.visible now)) prev prevNotExist then
        if isDelete then none else some (RawStorage.encodeValueWithTTL now' value ttl)
      else get db cf' k := by
  have hmcf : (RawStorage.swapModify now' cf key value isDelete ttl).cf = resolveCF cf := by
    unfold RawStorage.swapModify
    split <;> rfl
  rw [RawStorage.compareAndSwap, RawStorage.get, RawStorage.engineGet]
  cases hm : (cfPrefix (resolveCF cf)).isSome with
  | true =>
    rw [if_pos rfl]
    dsimp only [Except.map]
    split
    · rename_i hmatch
      obtain ⟨db', hdb', hget⟩ := commit_single db (resolveCF cf) (hmcf.symm ▸ hm)
      rw [hdb']
      dsimp only [directSwap]
      rw [hget, RawStorage.swapModify]
      cases isDelete <;> simp only [Modify.writeAt, hmatch] <;> grind
    · rename_i hmatch
      rw [directSwap, if_neg (fun h => hmatch h.2.2)]
  | false =>
    rw [if_neg (by simp), if_neg]
    · rfl
    · rintro ⟨rfl, -⟩
      rw [isSome_cfPrefix hcf] at hm
      cases hm

theorem keeps_iff_spares {store : Store} {call : Call} :
    (∀ served, serve store.peers store.db call = .ok served →
      store.Keeps (fun _ => True) served.db) ↔ Spares store call := by
  have hsame : store.Keeps (fun _ => True) store.db := fun _ _ _ _ _ _ => rfl
  unfold serve Spares
  cases call.request with
  | rawPut | rawDelete => exact iff_of_true (fun _ h => (validated_eq_ok.mp h).2 ▸ hsame) trivial
  | rawBatchPut | rawBatchDelete => exact iff_of_true (fun _ h => Except.ok.inj h ▸ hsame) trivial
  | rawDeleteRange cf startKey endKey =>
    constructor
    · intro h hvalid p hp key hown hlo hhi
      have hget := h _ (validated_eq_ok.mpr ⟨hvalid, rfl⟩) p hp trivial _ key hown
      rw [get_deleteRange _ hown.1, if_pos ⟨rfl, hlo, hhi⟩] at hget
      exact hget.symm
    · intro h served hserved p hp _ cf' key hown
      obtain ⟨hvalid, rfl⟩ := validated_eq_ok.mp hserved
      rw [get_deleteRange _ hown.1]
      split
      · rename_i hin
        obtain ⟨rfl, hlo, hhi⟩ := hin
        exact (h hvalid p hp key hown hlo hhi).symm
      · rfl
  | rawCompareAndSwap cf key value prev prevNotExist isDelete ttl =>
    constructor
    · intro h hvalid hmatch p hp hown
      have hget := h _ (validated_eq_ok.mpr ⟨hvalid, rfl⟩) p hp trivial _ key hown
      rw [get_compareAndSwap _ _ _ _ _ _ _ _ hown.1, if_pos ⟨rfl, rfl, hmatch⟩] at hget
      exact hget.symm
    · intro h served hserved p hp _ cf' key' hown
      obtain ⟨hvalid, rfl⟩ := validated_eq_ok.mp hserved
      rw [get_compareAndSwap _ _ _ _ _ _ _ _ hown.1]
      split
      · rename_i hin
        obtain ⟨rfl, rfl, hmatch⟩ := hin
        exact (h hvalid hmatch p hp hown).symm
      · rfl

theorem keeps_iff_inside {store : Store} {regionID : ℕ} {requests : List Request} :
    store.Keeps (fun r => r.id ≠ regionID) (applyEntry store.db requests) ↔
      Inside store regionID requests := by
  refine forall₂_congr fun p hp => forall_congr' fun hne => forall₃_congr fun cf key hown => ?_
  rw [get_applyEntry, applyEntry_apply]
  cases entryWrite cf key requests with
  | none => simp
  | some v => simp [eq_comm]

end

/-! ### One step -/

variable {s s' : State} {store : Store}

inductive StepCase (s : State) : Action → State → Prop
  | refused {id : ℕ} {call : Call} {e : RegionError} :
      serve (s.stores id).peers (s.stores id).db call = .error e → StepCase s (.serve id call) s
  | served {id : ℕ} {call : Call} {served : Served} :
      (∀ order ∈ call.orders, order.Perm ((s.stores id).peers.map HostedPeer.region)) →
      serve (s.stores id).peers (s.stores id).db call = .ok served →
      StepCase s (.serve id call)
        { s.setStore id { s.stores id with db := served.db } with
          calls := s.calls ++ served.proposals.map fun p => (id, p.1, p.2) }
  | dropped {n : ℕ} : StepCase s (.propose n) { s with calls := s.calls.eraseIdx n }
  | proposed {n id regionID : ℕ} {modifies : List Modify} :
      (id, regionID, modifies) ∈ s.calls →
      StepCase s (.propose n)
        { s with
          calls := s.calls.eraseIdx n
          pending := s.pending ++ [(regionID, modifiesToRequests modifies)] }
  | commit {n regionID : ℕ} {requests : List Request} : (regionID, requests) ∈ s.pending →
      StepCase s (.commit n)
        { s with
          log := update s.log regionID (s.log regionID ++ [requests])
          pending := s.pending.eraseIdx n }
  | apply {id regionID : ℕ} {requests : List Request} :
      (s.log regionID)[(s.stores id).applied regionID]? = some requests →
      StepCase s (.apply id regionID)
        (s.setStore id { s.stores id with
          applied := update (s.stores id).applied regionID
            ((s.stores id).applied regionID + 1)
          db := applyEntry (s.stores id).db requests })
  | setLeader {id regionID : ℕ} {isLeader : Bool} {leaderPeer : Option Peer} :
      StepCase s (.setLeader id regionID isLeader leaderPeer)
        (s.setStore id { s.stores id with
          peers := (s.stores id).peers.map (HostedPeer.setLeader regionID isLeader leaderPeer) })

variable {a : Action} {log : ℕ → List (List Request)}

theorem step_cases (h : step s a = some s') : StepCase s a s' := by
  cases a with
  | serve id call =>
    rw [step] at h
    split at h
    · split at h
      · cases h
        exact .refused ‹_›
      · cases h
        exact .served ‹_› ‹_›
    · cases h
  | propose n =>
    obtain ⟨⟨id, regionID, modifies⟩, hcall, rfl⟩ := map_eq_some_iff.mp h
    show StepCase s (.propose n) (match proposeCheck (s.stores id).peers regionID with
      | some _ => _
      | none => _)
    split
    · exact .dropped
    · exact .proposed (mem_of_getElem? hcall)
  | commit n =>
    obtain ⟨⟨regionID, requests⟩, hpending, rfl⟩ := map_eq_some_iff.mp h
    exact .commit (mem_of_getElem? hpending)
  | apply id regionID =>
    obtain ⟨-, h⟩ := ite_none_left_eq_some.mp h
    obtain ⟨requests, hentry, rfl⟩ := map_eq_some_iff.mp h
    exact .apply hentry
  | setLeader id regionID isLeader leaderPeer =>
    cases h
    exact .setLeader

theorem replicated_of_determined (h : ∀ id, (s.stores id).DeterminedBy s.log) : Replicated s where
  determined := h
  same id id' p hp p' hp' hregion hentries cf key hkey := by
    rw [h id p hp cf key hkey, h id' p' hp' cf key (hregion ▸ hkey), ← hregion, hentries]

def Behind (s : State) : Prop := ∀ id regionID, (s.stores id).applied regionID ≤ (s.log regionID).length

theorem replicated_setStore {id : ℕ} {calls : List (ℕ × ℕ × List Modify)} (h : Replicated s) :
    Replicated { s.setStore id store with calls } ↔ store.DeterminedBy s.log := by
  constructor
  · intro h'
    have hid := h'.determined id
    rwa [show ({ s.setStore id store with calls } : State).stores id = store from
      update_self ..] at hid
  · intro hstore
    refine replicated_of_determined fun id' => ?_
    show (update s.stores id store id').DeterminedBy s.log
    by_cases heq : id' = id
    · rw [heq, update_self]
      exact hstore
    · rw [update_of_ne heq]
      exact h.determined id'

theorem determinedBy_setDb (h : store.DeterminedBy log) {db : DB} :
    Store.DeterminedBy { store with db } log ↔ store.Keeps (fun _ => True) db := by
  constructor
  · intro h' p hp _ cf key hkey
    exact (h' p hp cf key hkey).trans (h p hp cf key hkey).symm
  · intro hkeeps p hp cf key hkey
    exact (hkeeps p hp trivial cf key hkey).trans (h p hp cf key hkey)

theorem determinedBy_apply (h : store.DeterminedBy log) {regionID : ℕ} {requests : List Request}
    (hentry : (log regionID)[store.applied regionID]? = some requests) :
    Store.DeterminedBy { store with
        applied := update store.applied regionID (store.applied regionID + 1)
        db := applyEntry store.db requests } log ↔
      store.Keeps (fun r => r.id ≠ regionID) (applyEntry store.db requests) := by
  constructor
  · intro h' p hp hne cf key hkey
    have hp' : get (applyEntry store.db requests) cf key = replay ((log p.region.id).take
        (update store.applied regionID (store.applied regionID + 1) p.region.id)) cf key :=
      h' p hp cf key hkey
    rw [hp', update_of_ne hne, h p hp cf key hkey]
  · intro hkeeps p hp cf key hkey
    show get (applyEntry store.db requests) cf key = replay ((log p.region.id).take
      (update store.applied regionID (store.applied regionID + 1) p.region.id)) cf key
    by_cases heq : p.region.id = regionID
    · subst heq
      rw [update_self, take_add_one, hentry, toList_some, replay_concat,
        get_applyEntry, applyEntry_apply, h p hp cf key hkey]
    · rw [update_of_ne heq, hkeeps p hp heq cf key hkey, h p hp cf key hkey]

theorem replicated_commit (h : Replicated s) (hbehind : Behind s) (regionID : ℕ)
    (requests : List Request) (pending : List (ℕ × List Request)) : Replicated { s with
      log := update s.log regionID (s.log regionID ++ [requests])
      pending } := by
  refine replicated_of_determined fun id p hp cf key hkey => ?_
  show get (s.stores id).db cf key = replay ((update s.log regionID
    (s.log regionID ++ [requests]) p.region.id).take _) cf key
  rw [h.determined id p hp cf key hkey]
  by_cases heq : p.region.id = regionID
  · subst heq
    rw [update_self, take_append_of_le_length (hbehind id p.region.id)]
  · rw [update_of_ne heq]

theorem determinedBy_setLeader (h : store.DeterminedBy log)
    (regionID : ℕ) (isLeader : Bool) (leaderPeer : Option Peer) : Store.DeterminedBy { store with
      peers := store.peers.map (HostedPeer.setLeader regionID isLeader leaderPeer) } log := by
  intro p' hp' cf key hkey
  obtain ⟨p, hp, rfl⟩ := mem_map.mp hp'
  rw [HostedPeer.setLeader_region] at hkey ⊢
  exact h p hp cf key hkey

theorem behind_step (h : Behind s) (hstep : step s a = some s') : Behind s' := by
  -- a store moves only where there is an entry
  have hset : ∀ {id : ℕ} {store : Store},
      (∀ regionID, store.applied regionID ≤ (s.log regionID).length) →
      ∀ id' regionID, (update s.stores id store id').applied regionID ≤
        (s.log regionID).length := by
    intro id store hstore id' regionID
    by_cases heq : id' = id
    · rw [heq, update_self]
      exact hstore regionID
    · rw [update_of_ne heq]
      exact h id' regionID
  cases step_cases hstep with
  | refused => exact h
  | served => exact hset (h _)
  | dropped => exact h
  | proposed => exact h
  | commit =>
    rename_i n regionID requests hpending
    intro id regionID'
    show (s.stores id).applied regionID' ≤
      (update s.log regionID (s.log regionID ++ [requests]) regionID').length
    have hle := h id regionID'
    by_cases heq : regionID' = regionID
    · subst heq
      rw [update_self, List.length_append]
      omega
    · rwa [update_of_ne heq]
  | apply hentry =>
    rename_i id regionID requests
    refine hset fun regionID' => ?_
    show update (s.stores id).applied regionID _ regionID' ≤ _
    by_cases heq : regionID' = regionID
    · subst heq
      rw [update_self]
      exact (List.getElem?_eq_some_iff.mp hentry).1
    · rw [update_of_ne heq]
      exact h id regionID'
  | setLeader => exact hset (h _)

theorem replicated_step_iff (h : Replicated s) (hbehind : Behind s)
    (hstep : step s a = some s') : Replicated s' ↔ Undisturbed s a := by
  cases step_cases hstep with
  | refused herror =>
    refine iff_of_true h (keeps_iff_spares.mp fun served hserved => ?_)
    cases herror.symm.trans hserved
  | served _ hserved =>
    rw [replicated_setStore h, determinedBy_setDb (h.determined _), Undisturbed, ← keeps_iff_spares]
    refine ⟨fun hkeeps served' hserved' => ?_, fun hkeeps => hkeeps _ hserved⟩
    cases hserved.symm.trans hserved'
    exact hkeeps
  | dropped | proposed => exact iff_of_true (replicated_of_determined h.determined) trivial
  | commit => exact iff_of_true (replicated_commit h hbehind _ _ _) trivial
  | apply hentry =>
    rw [replicated_setStore h, determinedBy_apply (h.determined _) hentry, Undisturbed,
      keeps_iff_inside]
    refine ⟨fun hkeeps requests' hentry' => ?_, fun hkeeps => hkeeps _ hentry⟩
    cases hentry.symm.trans hentry'
    exact hkeeps
  | setLeader =>
    exact iff_of_true ((replicated_setStore h).mpr
      (determinedBy_setLeader (h.determined _) _ _ _)) trivial

/-- **Raw writes are replicated all along a run exactly when** no range of a `RawDeleteRange`
has a record of a hosted region, no matching `RawCompareAndSwap` is for a hosted key unless it
writes what is there, and no entry writes to another hosted region than its own. -/
theorem replicated_iff (peers : ℕ → List HostedPeer) (as : List Action) :
    (system peers).AlwaysAfter Replicated (start peers) as ↔
      (system peers).Meets Undisturbed (start peers) as := by
  refine StepSystem.alwaysAfter_iff (I := fun s => Replicated s ∧ Behind s) ?_ ?_ ?_ as
  · intro s s' a hinv hC hstep
    have h' := (replicated_step_iff hinv.1 hinv.2 hstep).mpr hC
    exact ⟨⟨h', behind_step hinv.2 hstep⟩, h'⟩
  · intro s s' a hinv hC hstep h'
    exact hC ((replicated_step_iff hinv.1 hinv.2 hstep).mp h')
  · refine ⟨replicated_of_determined fun id p hp cf key hkey => ?_, fun id regionID => le_rfl⟩
    show (cfPrefix cf).bind (fun cfByte => Table.get Table.empty (prefixKey cfByte key)) = none
    cases cfPrefix cf <;> rfl

def replicas (id : ℕ) : List HostedPeer := [{ region := { id := 1 }, isLeader := id = 0 }]

def call (request : RawRequest) : Call := { context := some { regionId := 1 }, request }

def swapRun : List Action := [.serve 0 (call (.rawCompareAndSwap none [0x6b] [0x76] [] true false 0))]

def deleteRun : List Action :=
  [.serve 0 (call (.rawPut none [0x6b] [0x76] 0)), .propose 0, .commit 0, .apply 0 1, .apply 1 1,
    .serve 0 (call (.rawDeleteRange none [0x6b] [0x6c]))]

def State.replica (s : State) (id : ℕ) : ℕ × Option Value :=
  ((s.stores id).applied 1, get (s.stores id).db .default [0x6b])

/-- **A swap is only on the store that served it, and a deleted range is only gone there**,
though both stores have applied the same entries. -/
theorem direct_writes_not_replicated :
    (¬ (system replicas).AlwaysAfter Replicated (start replicas) swapRun ∧
      ((system replicas).runFrom (start replicas) swapRun).map (fun s => (s.replica 0, s.replica 1)) =
        some ((0, some [0x76]), (0, none))) ∧
    ¬ (system replicas).AlwaysAfter Replicated (start replicas) deleteRun ∧
      ((system replicas).runFrom (start replicas) deleteRun).map (fun s => (s.replica 0, s.replica 1)) =
        some ((1, none), (1, some [0x76])) := by
  refine ⟨⟨fun h => ?_, rfl⟩, fun h => ?_, rfl⟩
  · obtain ⟨hlast, -⟩ := h _ rfl
    exact absurd (hlast.same 0 1 _ mem_cons_self _ mem_cons_self rfl rfl .default [0x6b]
      (by decide)) (by decide)
  · obtain ⟨-, h⟩ := h _ rfl
    obtain ⟨-, h⟩ := h _ rfl
    obtain ⟨-, h⟩ := h _ rfl
    obtain ⟨-, h⟩ := h _ rfl
    obtain ⟨-, h⟩ := h _ rfl
    obtain ⟨hlast, -⟩ := h _ rfl
    exact absurd (hlast.same 0 1 _ mem_cons_self _ mem_cons_self rfl rfl .default [0x6b]
      (by decide)) (by decide)

end RawReplication
