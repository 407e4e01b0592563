/-
`KvDeleteRange` in standalone mode: `internal/server/server.go`.

The bounds are user keys, and are handed to the engine as if they were encoded.
-/
import Gookv.Engine
import Gookv.Modifies

namespace DeleteRange

open Txntypes StoreRestart Mvcc Codec Rocks

def kvDeleteRange (db : DB) (startKey endKey : Key) : Option String × DB :=
  if startKey = [] ∨ endKey = [] then (some "start_key and end_key are required", db)
  else
    let modifies := [CF.default, CF.write].map fun cf => Modify.deleteRange cf startKey endKey
    let modifies := modifies ++ [.deleteRange .lock startKey endKey]
    (none, Rocks.applyModifies db modifies)

def stored (db : DB) (rec : Record) : Option Value := Rocks.get db rec.cf rec.encodedKey

structure DeletesExactly (db : DB) (startKey endKey : Key) : Prop where
  gone : ∀ rec : Record, startKey ≤ rec.userKey → rec.userKey < endKey →
    stored (kvDeleteRange db startKey endKey).2 rec = none
  kept : ∀ rec : Record, ¬ (startKey ≤ rec.userKey ∧ rec.userKey < endKey) →
    stored (kvDeleteRange db startKey endKey).2 rec = stored db rec

variable {db : DB} {startKey endKey : Key}

theorem stored_kvDeleteRange (hstart : startKey ≠ []) (hend : endKey ≠ []) (rec : Record) :
    stored (kvDeleteRange db startKey endKey).2 rec =
      if startKey ≤ rec.encodedKey ∧ rec.encodedKey < endKey then none else stored db rec := by
  have hbounds : ¬ (startKey = [] ∨ endKey = []) := not_or.mpr ⟨hstart, hend⟩
  rw [kvDeleteRange, if_neg hbounds, stored, stored, view_applyModifies,
    StoreRestart.applyModifies, if_pos (by rfl), foldl_apply]
  have hlast : LastWrite (Modify.writeAt rec.cf rec.encodedKey)
      [.deleteRange .default startKey endKey, .deleteRange .write startKey endKey,
        .deleteRange .lock startKey endKey] =
      if startKey ≤ rec.encodedKey ∧ rec.encodedKey < endKey then some none else none := by
    simp only [← not_lt]
    -- one of the three ranges is in the family of the record
    cases rec <;> simp [LastWrite, Modify.writeAt, Record.cf]
  show (LastWrite (Modify.writeAt rec.cf rec.encodedKey)
    [.deleteRange .default startKey endKey, .deleteRange .write startKey endKey,
      .deleteRange .lock startKey endKey]).getD _ = _
  rw [hlast]
  split <;> rfl

def CutsAlike (db : DB) (startKey endKey : Key) : Prop :=
  ∀ rec : Record, stored db rec ≠ none →
    (startKey ≤ rec.encodedKey ∧ rec.encodedKey < endKey ↔
      startKey ≤ rec.userKey ∧ rec.userKey < endKey)

theorem CutsAlike.deletesExactly (hstart : startKey ≠ []) (hend : endKey ≠ [])
    (h : CutsAlike db startKey endKey) : DeletesExactly db startKey endKey := by
  constructor
  · intro rec hle hlt
    rw [stored_kvDeleteRange hstart hend]
    split
    · rfl
    · rename_i hcut
      by_contra hrec
      exact hcut ((h rec hrec).mpr ⟨hle, hlt⟩)
  · intro rec hout
    rw [stored_kvDeleteRange hstart hend]
    split
    · rename_i hcut
      by_contra hrec
      exact hout ((h rec (Ne.symm hrec)).mp hcut)
    · rfl

/-- **The requested keys are deleted exactly when the bounds cut the encoded keys of the
stored records as they cut the user keys.** -/
theorem deletesExactly_iff (db : DB) {startKey endKey : Key} (hstart : startKey ≠ [])
    (hend : endKey ≠ []) : DeletesExactly db startKey endKey ↔ CutsAlike db startKey endKey := by
  refine ⟨?_, CutsAlike.deletesExactly hstart hend⟩
  rintro ⟨hgone, hkept⟩ rec hrec
  constructor
  · intro hcut
    by_contra hout
    have h := hkept rec hout
    rw [stored_kvDeleteRange hstart hend, if_pos hcut] at h
    exact hrec h.symm
  · intro hin
    by_contra hcut
    have h := hgone rec hin.1 hin.2
    rw [stored_kvDeleteRange hstart hend, if_neg hcut] at h
    exact hrec h

def written (M : Marshal) (ms : List Mvcc.Modify) : DB :=
  Rocks.applyModifies Table.empty (ms.map (·.encoded M))

theorem exists_of_stored {M : Marshal} {ms : List Mvcc.Modify} {rec : Record}
    (h : stored (written M ms) rec ≠ none) : ∃ m ∈ ms, m.record = rec := by
  have hknown : (ms.map (·.encoded M)).all fun m => (cfPrefix m.cf).isSome := by
    rw [List.all_eq_true]
    intro x hx
    obtain ⟨m, -, rfl⟩ := List.mem_map.mp hx
    cases m <;> rfl
  rw [stored, written, view_applyModifies, StoreRestart.applyModifies, if_pos hknown, foldl_apply]
    at h
  cases hlast : LastWrite (Modify.writeAt rec.cf rec.encodedKey) (ms.map (·.encoded M)) with
  | none =>
    rw [hlast] at h
    exact absurd (get_empty rec.cf rec.encodedKey) h
  | some v =>
    obtain ⟨x, hx, hv⟩ := LastWrite.exists_of_eq_some hlast
    obtain ⟨m, hm, rfl⟩ := List.mem_map.mp hx
    exact ⟨m, hm, Modify.record_eq_of_writeAt (by rw [hv]; simp)⟩

theorem deletesExactly_b :
    DeletesExactly (written ⟨fun _ => [], fun _ => []⟩ [.putValue [0x62] 5 [1]]) [0x61] [0x63] ∧
      stored (written ⟨fun _ => [], fun _ => []⟩ [.putValue [0x62] 5 [1]]) (.value [0x62] 5) =
        some [1] := by
  refine ⟨(deletesExactly_iff _ (by decide) (by decide)).mpr ?_, by rfl⟩
  intro rec hrec
  obtain ⟨m, hm, rfl⟩ := exists_of_stored hrec
  obtain rfl := List.mem_singleton.mp hm
  decide

/-- **The wrong keys are deleted**: the lock of the key `a` survives the deletion of all keys
from `a` to below `a\0`, and does not survive that of the keys from `a\0` to below `b`. -/
theorem wrong_keys_deleted :
    let db := written ⟨fun _ => [7], fun _ => []⟩
      [.putLock [0x61] { lockType := .put, primary := [0x61], startTS := 5, ttl := 3000 }]
    stored (kvDeleteRange db [0x61] [0x61, 0]).2 (.lock [0x61]) = some [7] ∧
      stored (kvDeleteRange db [0x61, 0] [0x62]).2 (.lock [0x61]) = none ∧
      stored db (.lock [0x61]) = some [7] ∧
      ¬ DeletesExactly db [0x61] [0x61, 0] ∧ ¬ DeletesExactly db [0x61, 0] [0x62] := by
  intro db
  have hsurvives : stored (kvDeleteRange db [0x61] [0x61, 0]).2 (.lock [0x61]) = some [7] := by rfl
  have hlost : stored (kvDeleteRange db [0x61, 0] [0x62]).2 (.lock [0x61]) = none := by rfl
  have hthere : stored db (.lock [0x61]) = some [7] := by rfl
  refine ⟨hsurvives, hlost, hthere, ?_, ?_⟩
  · intro h
    have hgone := h.gone (.lock [0x61]) le_rfl (by decide)
    rw [hsurvives] at hgone
    cases hgone
  · intro h
    have hkept := h.kept (.lock [0x61]) (by decide)
    rw [hlost, hthere] at hkept
    cases hkept

end DeleteRange
