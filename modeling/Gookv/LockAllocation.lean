/-
What `UnmarshalLock` of `pkg/txntypes/lock.go` allocates before it has read it.

The count of secondaries or rollback timestamps goes to `make` as it is read.  A list whose
elements all follow takes at least as many bytes as it has elements (`length_of_field`), so that
only the list at which the input ends early counts for more than it brings: `robust_iff`.
-/
import Gookv.TxnRecords

namespace LockAllocation

open Txntypes List Reader

/-- The size of an element and the count that go to `make` when a list field is read. -/
def request (tag : UInt8) (data : List UInt8) : List (ℕ × ℕ) :=
  match readVarint data with
  | .error _ => []
  | .ok (count, _) =>
    if tag = 0x61 then [(24, count.toNat)] else if tag = 0x72 then [(8, count.toNat)] else []

/-- The calls of `make` in the loop over the optional fields. -/
def requests : List UInt8 → List (ℕ × ℕ)
  | [] => []
  | tag :: data =>
    request tag data ++
      match _h : readLockField tag data with
      | .error _ => []
      | .ok (_, rest) => requests rest
termination_by data => data.length
decreasing_by exact Nat.lt_succ_of_le (shrinks_lockField tag data _ rest _h)

/-- The calls of `make` for lists in `UnmarshalLock`, in their order. -/
def allocated (data : List UInt8) : List (ℕ × ℕ) :=
  match readLockHeader data with
  | .error _ => []
  | .ok (_, rest) => requests rest

/-- `makeslice` panics when the slice takes more than the address space of `2 ^ 48` bytes. -/
def Panics (data : List UInt8) : Prop := ∃ p ∈ allocated data, 2 ^ 48 < p.1 * p.2

/-- No call of `make` panics, and the elements of all of them are at most as many as the bytes. -/
def Robust (data : List UInt8) : Prop :=
  ¬ Panics data ∧ ((allocated data).map Prod.snd).sum ≤ data.length

/-- The fields `fs` are read from the first bytes, and `left` stands behind them. -/
inductive Reaches : List UInt8 → List LockField → List UInt8 → Prop
  | refl (data : List UInt8) : Reaches data [] data
  | step {tag : UInt8} {data rest left : List UInt8} {f : LockField} {fs : List LockField} :
    readLockField tag data = .ok (f, rest) → Reaches rest fs left →
      Reaches (tag :: data) (f :: fs) left

/-- The number of secondaries or rollback timestamps in a field. -/
def elements : LockField → ℕ
  | .asyncCommitKeys secondaries => secondaries.length
  | .rollbackTS tss => tss.length
  | _ => 0

/-- Every list that is reached has a size below the address space, and the one whose elements do
not all follow has a count that is, with the elements of the lists before it, at most the number
of bytes. -/
def CountsFit (data : List UInt8) : Prop :=
  ∀ header body fs tag tail, readLockHeader data = .ok (header, body) →
    Reaches body fs (tag :: tail) → ∀ p ∈ request tag tail, p.1 * p.2 ≤ 2 ^ 48 ∧
      ∀ e, readLockField tag tail = .error e → (fs.map elements).sum + p.2 ≤ data.length

/-! ### What an element takes -/

variable {α : Type} {read : Reader UInt8 α RecordError} {data rest : List UInt8}

def Consumes (read : Reader UInt8 α RecordError) : Prop :=
  ∀ data a rest, read data = .ok (a, rest) → rest.length < data.length

theorem consumes_varint : Consumes readVarint := by
  intro data v rest h
  rw [readVarint] at h
  split at h
  · cases h
  · next hdec =>
    cases h
    exact Varint.decode_length hdec

theorem consumes_varBytes : Consumes readVarBytes := by
  intro data bs rest h
  rw [readVarBytes, Reader.bind] at h
  split at h
  · cases h
  · next n rest' hread =>
    have hlen := shrinks_bytes n.toNat _ _ _ h
    have hlt := consumes_varint _ _ _ hread
    omega

theorem consumes_uint64BE : Consumes readUint64BE := by
  intro data v rest h
  rw [readUint64BE] at h
  split at h
  · cases h
  · cases h
    rw [length_drop]
    omega

theorem length_times (hread : Consumes read) {n : ℕ} {as : List α}
    (h : read.times n data = .ok (as, rest)) : as.length = n ∧ rest.length + n ≤ data.length := by
  induction n generalizing data as with
  | zero =>
    cases h
    exact ⟨rfl, le_rfl⟩
  | succ n ih =>
    rw [Reader.times, Reader.bind] at h
    split at h
    · cases h
    · next a rest' ha =>
      have hlt := hread _ _ _ ha
      rw [Reader.map] at h
      cases hn : read.times n rest' with
      | error e =>
        rw [hn] at h
        cases h
      | ok p =>
        rw [hn] at h
        cases h
        obtain ⟨hlen, hle⟩ := ih hn
        exact ⟨by rw [length_cons, hlen], by omega⟩

theorem length_repeated (hread : Consumes read) (f : List α → LockField) {g : LockField}
    (h : ((readRepeated read).map f) data = .ok (g, rest)) :
    ∃ count rest' as, readVarint data = .ok (count, rest') ∧ g = f as ∧ as.length = count.toNat ∧
      rest.length + count.toNat ≤ data.length := by
  rw [Reader.map, readRepeated, Reader.bind] at h
  cases hcount : readVarint data with
  | error e =>
    rw [hcount] at h
    cases h
  | ok p =>
    rw [hcount] at h
    dsimp only at h
    cases htimes : read.times p.1.toNat p.2 with
    | error e =>
      rw [htimes] at h
      cases h
    | ok q =>
      rw [htimes] at h
      cases h
      obtain ⟨hlen, hle⟩ := length_times hread htimes
      have hlt := consumes_varint _ _ _ hcount
      exact ⟨p.1, p.2, q.1, rfl, rfl, hlen, by omega⟩

variable {tag : UInt8} {f : LockField} {fs : List LockField} {body left : List UInt8}

theorem elements_other (ha : tag ≠ 0x61) (hr : tag ≠ 0x72)
    (h : readLockField tag data = .ok (f, rest)) : elements f = 0 := by
  unfold readLockField Reader.map Reader.bind at h
  rw [if_neg ha, if_neg hr] at h
  split_ifs at h <;> first | cases h; rfl | (simp only [Except.map] at h; grind [elements])

/-- A field that is read has as many elements as its count says, and takes a byte for each. -/
theorem length_of_field (h : readLockField tag data = .ok (f, rest)) :
    ((request tag data).map Prod.snd).sum = elements f ∧
      elements f + rest.length ≤ data.length := by
  by_cases ha : tag = 0x61
  · subst ha
    obtain ⟨count, rest', keys, hcount, rfl, hlen, hle⟩ := length_repeated consumes_varBytes _ h
    rw [request, hcount]
    refine ⟨hlen.symm, ?_⟩
    show keys.length + rest.length ≤ data.length
    omega
  · by_cases hr : tag = 0x72
    · subst hr
      obtain ⟨count, rest', tss, hcount, rfl, hlen, hle⟩ := length_repeated consumes_uint64BE _ h
      rw [request, hcount]
      refine ⟨hlen.symm, ?_⟩
      show tss.length + rest.length ≤ data.length
      omega
    · have hzero : elements f = 0 := elements_other ha hr h
      have hle := shrinks_lockField tag data f rest h
      refine ⟨?_, by omega⟩
      rw [hzero, request]
      split
      · rfl
      · rw [if_neg ha, if_neg hr]
        rfl

/-! ### Along the loop -/

theorem requests_cons_ok (h : readLockField tag data = .ok (f, rest)) :
    requests (tag :: data) = request tag data ++ requests rest := by
  rw [requests]
  split
  · next herr => cases h.symm.trans herr
  · next hok =>
    cases h.symm.trans hok
    rfl

theorem requests_cons_error {e : RecordError} (h : readLockField tag data = .error e) :
    requests (tag :: data) = request tag data := by
  rw [requests]
  split
  · exact append_nil _
  · next hok => cases h.symm.trans hok

theorem requests_of_reaches (h : Reaches body fs left) : ∃ before,
    requests body = before ++ requests left ∧
      (before.map Prod.snd).sum = (fs.map elements).sum ∧
      (fs.map elements).sum + left.length ≤ body.length := by
  induction h with
  | refl data => exact ⟨[], rfl, rfl, (Nat.zero_add _).le⟩
  | @step tag data rest left f fs hread _ ih =>
    obtain ⟨before, heq, hsum, hle⟩ := ih
    obtain ⟨hcount, hlen⟩ := length_of_field hread
    refine ⟨request tag data ++ before, ?_, ?_, ?_⟩
    · rw [requests_cons_ok hread, heq, append_assoc]
    · rw [map_append, sum_append, hcount, hsum, map_cons, sum_cons]
    · rw [map_cons, sum_cons, length_cons]
      omega

/-- The loop ends at the end of the input or at a field that cannot be read. -/
theorem exists_end (body : List UInt8) : ∃ fs left, Reaches body fs left ∧
    (left = [] ∨ ∃ tag tail e, left = tag :: tail ∧ readLockField tag tail = .error e) := by
  fun_induction requests body with
  | case1 => exact ⟨[], [], .refl [], .inl rfl⟩
  | case2 tag data ih =>
    cases hread : readLockField tag data with
    | error e => exact ⟨[], tag :: data, .refl _, .inr ⟨tag, data, e, rfl, hread⟩⟩
    | ok p =>
      obtain ⟨fs, left, hreach, hend⟩ := ih p.1 p.2 hread
      exact ⟨p.1 :: fs, left, .step hread hreach, hend⟩

theorem exists_of_mem_requests {p : ℕ × ℕ} (h : p ∈ requests body) :
    ∃ fs tag tail, Reaches body fs (tag :: tail) ∧ p ∈ request tag tail := by
  fun_induction requests body with
  | case1 => cases h
  | case2 tag data ih =>
    rcases mem_append.mp h with h | h
    · exact ⟨[], tag, data, .refl _, h⟩
    · split at h
      · cases h
      · next f rest hread =>
        obtain ⟨fs, tag', tail, hreach, hmem⟩ := ih f rest hread h
        exact ⟨f :: fs, tag', tail, .step hread hreach, hmem⟩

theorem request_of_mem {p : ℕ × ℕ} (h : p ∈ request tag data) : request tag data = [p] := by
  rw [request] at h ⊢
  grind

theorem shrinks_lockHeader : readLockHeader.Shrinks := by
  refine Shrinks.bind ?_ fun _ => shrinks_varBytes.bind fun _ => shrinks_varint.bind
    fun _ => shrinks_varint.map _
  intro data b rest h
  cases data with
  | nil => cases h
  | cons b' data =>
    cases h
    exact Nat.le_succ _

/-- **Decoding a lock is robust exactly when its counts fit**: only the list at which the input
ends early can ask for more elements than there are bytes. -/
theorem robust_iff (data : List UInt8) : Robust data ↔ CountsFit data := by
  constructor
  · rintro ⟨hpanic, hsum⟩ header body fs tag tail hheader hreach p hp
    have hall : allocated data = requests body := by rw [allocated, hheader]
    rw [Panics, hall] at hpanic
    rw [hall] at hsum
    obtain ⟨before, heq, hbefore, -⟩ := requests_of_reaches hreach
    have hmem : p ∈ requests body := by
      rw [heq, requests]
      exact mem_append_right before (mem_append_left _ hp)
    refine ⟨not_lt.mp fun hlt => hpanic ⟨p, hmem, hlt⟩, fun e herr => ?_⟩
    rw [heq, requests_cons_error herr, request_of_mem hp, map_append, sum_append, hbefore] at hsum
    exact hsum
  · intro hfit
    rw [Robust, Panics, allocated]
    cases hheader : readLockHeader data with
    | error e => exact ⟨fun ⟨p, hp, _⟩ => absurd hp not_mem_nil, Nat.zero_le _⟩
    | ok q =>
      refine ⟨fun ⟨p, hp, hlt⟩ => ?_, ?_⟩
      · obtain ⟨fs, tag, tail, hreach, hmem⟩ := exists_of_mem_requests hp
        exact absurd (hfit q.1 q.2 fs tag tail hheader hreach p hmem).1 (not_le.mpr hlt)
      · -- what is read is bounded by its bytes, the list that is not by the condition
        obtain ⟨fs, left, hreach, hend⟩ := exists_end q.2
        obtain ⟨before, heq, hbefore, hle⟩ := requests_of_reaches hreach
        have hshrinks := shrinks_lockHeader _ _ _ hheader
        show ((requests q.2).map Prod.snd).sum ≤ data.length
        rw [heq, map_append, sum_append, hbefore]
        rcases hend with rfl | ⟨tag, tail, e, rfl, herr⟩
        · rw [requests]
          show (fs.map elements).sum + 0 ≤ data.length
          omega
        · rw [requests_cons_error herr]
          cases hreq : request tag tail with
          | nil =>
            show (fs.map elements).sum + 0 ≤ data.length
            omega
          | cons p ps =>
            have hp : p ∈ request tag tail := hreq ▸ mem_cons_self
            rw [← hreq, request_of_mem hp]
            exact (hfit q.1 q.2 fs tag tail hheader hreach p hp).2 e herr

/-- Fourteen bytes with a count of `2 ^ 60` secondaries. -/
theorem huge_count_panics :
    Panics [0x50, 0, 0, 0, 0x61, 0x80, 0x80, 0x80, 0x80, 0x80, 0x80, 0x80, 0x80, 0x10] := by
  refine ⟨(24, 2 ^ 60), ?_, by decide⟩
  show (24, 2 ^ 60) ∈ requests [0x61, 0x80, 0x80, 0x80, 0x80, 0x80, 0x80, 0x80, 0x80, 0x10]
  rw [requests]
  exact mem_append_left _ (by decide)

end LockAllocation
