/-
The serialized form of region snapshots: `MarshalSnapshotData` and `UnmarshalSnapshotData`
of `internal/raftstore/snapshot.go`.

All reads but that of the number of families are guarded, and the pairs of a family are allocated
from their count alone.  `snapshotData_wire` has the round trip and, for every input, exactly when
the reader neither panics nor allocates more pairs than the input has bytes.
-/
import Gookv.TaggedFields

namespace SnapshotWire

open List
open Reader (bind_ok bind_error map_ok map_error)

structure SnapshotCFFile where
  cf : List UInt8
  kvPairs : List (List UInt8 × List UInt8)
  checksum : ℕ
  deriving DecidableEq

structure SnapshotData where
  regionID : ℕ
  version : ℕ
  startKey : List UInt8
  endKey : List UInt8
  cfFiles : List SnapshotCFFile
  deriving DecidableEq

def putUint : ℕ → ℕ → List UInt8
  | 0, _ => []
  | k + 1, n => putUint k (n / 256) ++ [UInt8.ofNat n]

def putSized (k : ℕ) (b : List UInt8) : List UInt8 := putUint k b.length ++ b

def marshalPair (kv : List UInt8 × List UInt8) : List UInt8 := putSized 4 kv.1 ++ putSized 4 kv.2

def SnapshotCFFile.marshal (f : SnapshotCFFile) : List UInt8 :=
  (putSized 2 f.cf ++ (putUint 4 f.kvPairs.length ++ putUint 4 f.checksum)) ++
    f.kvPairs.flatMap marshalPair

def marshalSnapshotData (sd : SnapshotData) : List UInt8 :=
  (putUint 8 sd.regionID ++ (putUint 8 sd.version ++
    (putSized 4 sd.startKey ++ putSized 4 sd.endKey))) ++
      (putUint 4 sd.cfFiles.length ++ sd.cfFiles.flatMap SnapshotCFFile.marshal)

inductive Field
  | startKeyLength
  | startKey
  | endKeyLength
  | endKey
  | cfNameLength (i : ℕ)
  | cfName (i : ℕ)
  | kvCount (i : ℕ)
  | keyLength (i j : ℕ)
  | key (i j : ℕ)
  | valueLength (i j : ℕ)
  | value (i j : ℕ)
  deriving DecidableEq

inductive Fault
  | tooShort
  | truncated (field : Field)
  | outOfBounds
  deriving DecidableEq

abbrev Bytes (α : Type) := Reader UInt8 α Fault

def slice (n : ℕ) : Bytes (List UInt8) := fun data =>
  if data.length < n then .error .outOfBounds else .ok (data.take n, data.drop n)

def need {α : Type} (n : ℕ) (fault : Fault) (r : Bytes α) : Bytes α := fun data =>
  if data.length < n then .error fault else r data

def uint (k : ℕ) : Bytes ℕ := (slice k).map (·.foldl (fun n b => n * 256 + b.toNat) 0)

def sized (k : ℕ) (length bytes : Field) : Bytes (List UInt8) :=
  need k (.truncated length) ((uint k).bind fun n => need n (.truncated bytes) (slice n))

def repeated {α : Type} (r : ℕ → Bytes α) : ℕ → ℕ → Bytes (List α)
  | _, 0 => fun data => .ok ([], data)
  | i, n + 1 => (r i).bind fun a => (repeated r (i + 1) n).map (a :: ·)

def readPair (i j : ℕ) : Bytes (List UInt8 × List UInt8) :=
  (sized 4 (.keyLength i j) (.key i j)).bind fun key =>
    (sized 4 (.valueLength i j) (.value i j)).map fun value => (key, value)

def readHeader (i : ℕ) : Bytes (List UInt8 × ℕ × ℕ) :=
  (sized 2 (.cfNameLength i) (.cfName i)).bind fun cf =>
    need 8 (.truncated (.kvCount i)) ((uint 4).bind fun kvCount =>
      (uint 4).map fun checksum => (cf, kvCount, checksum))

def readFile (i : ℕ) : Bytes SnapshotCFFile :=
  (readHeader i).bind fun h =>
    (repeated (readPair i) 0 h.2.1).map fun kvPairs => ⟨h.1, kvPairs, h.2.2⟩

def readBounds : Bytes SnapshotData :=
  need 20 .tooShort ((uint 8).bind fun regionID => (uint 8).bind fun version =>
    (sized 4 .startKeyLength .startKey).bind fun startKey =>
      (sized 4 .endKeyLength .endKey).map fun endKey => ⟨regionID, version, startKey, endKey, []⟩)

def readFiles (sd : SnapshotData) : Bytes SnapshotData :=
  (uint 4).bind fun cfCount =>
    (repeated readFile 0 cfCount).map fun cfFiles => { sd with cfFiles }

def unmarshalSnapshotData (data : List UInt8) : Except Fault SnapshotData :=
  ((readBounds.bind readFiles) data).map Prod.fst

/-- The capacities that go to `make` for the pairs of `n` families. -/
def madeFiles : ℕ → ℕ → List UInt8 → List ℕ
  | _, 0, _ => []
  | i, n + 1, data =>
    match readHeader i data with
    | .error _ => []
    | .ok (h, _) =>
      h.2.1 :: match readFile i data with
        | .error _ => []
        | .ok (_, rest) => madeFiles (i + 1) n rest

/-- The capacities that go to `make([]SnapKVPair, 0, kvCount)`, in their order. -/
def made (data : List UInt8) : List ℕ :=
  match (readBounds.bind fun _ => uint 4) data with
  | .error _ => []
  | .ok (cfCount, rest) => madeFiles 0 cfCount rest

/-- The reader does not panic, and allocates at most as many pairs as there are bytes. -/
def Robust (data : List UInt8) : Prop :=
  unmarshalSnapshotData data ≠ .error .outOfBounds ∧ (made data).sum ≤ data.length

/-- Four bytes follow the bounds, and a family whose pairs do not all follow has a count that is,
with the pairs of the families before it, at most the number of bytes. -/
def CountsFit (data : List UInt8) : Prop :=
  ∀ sd behind, readBounds data = .ok (sd, behind) → 4 ≤ behind.length ∧
    ∀ cfCount body files tail h rest e, uint 4 behind = .ok (cfCount, body) →
      repeated readFile 0 files.length body = .ok (files, tail) → files.length < cfCount →
      readHeader files.length tail = .ok (h, rest) → readFile files.length tail = .error e →
        (files.map (·.kvPairs.length)).sum + h.2.1 ≤ data.length

variable {α α' : Type} {k n i : ℕ} {data bs rest tail body : List UInt8}
  {files : List SnapshotCFFile}

theorem length_putUint (k n : ℕ) : (putUint k n).length = k := by
  induction k generalizing n with
  | zero => rfl
  | succ k ih => simp [putUint, ih]

theorem foldl_putUint (h : n < 256 ^ k) :
    (putUint k n).foldl (fun n b => n * 256 + b.toNat) 0 = n := by
  induction k generalizing n with
  | zero => simp_all [putUint]
  | succ k ih =>
    rw [putUint, foldl_concat, ih (Nat.div_lt_of_lt_mul (by rwa [pow_succ'] at h)),
      UInt8.toNat_ofNat']
    omega

theorem reads_slice (b : List UInt8) : (slice b.length).Reads b b := by
  intro rest
  rw [slice, if_neg (by rw [length_append]; omega), take_left, drop_left]

theorem reads_uint (h : n < 256 ^ k) : (uint k).Reads (putUint k n) n := by
  have hslice := (reads_slice (putUint k n)).map (·.foldl (fun n b => n * 256 + b.toNat) 0)
  rwa [length_putUint, foldl_putUint h] at hslice

variable {e fault : Fault} {bytes length : Field} {as : List α} {f : SnapshotCFFile}
  {sd : SnapshotData} {r : ℕ → Bytes α}

theorem Reads.need {r : Bytes α} {a : α} (h : r.Reads bs a) (hn : n ≤ bs.length) :
    (need n fault r).Reads bs a := by
  intro rest
  rw [SnapshotWire.need, if_neg (by rw [length_append]; omega), h rest]

theorem reads_sized {b : List UInt8} (h : b.length < 256 ^ k) :
    (sized k length bytes).Reads (putUint k b.length ++ b) b :=
  Reads.need ((reads_uint h).bind (Reads.need (reads_slice b) le_rfl))
    (by simp [length_putUint])

theorem reads_repeated {enc : α → List UInt8} (h : ∀ i, ∀ a ∈ as, (r i).Reads (enc a) a) (i : ℕ) :
    (repeated r i as.length).Reads (as.flatMap enc) as := by
  induction as generalizing i with
  | nil => exact fun rest => rfl
  | cons a as ih =>
    have has := ih (fun i b hb => h i b (mem_cons_of_mem a hb)) (i + 1)
    exact (h i a (by simp)).bind (has.map (a :: ·))

structure SnapshotCFFile.Fits (f : SnapshotCFFile) : Prop where
  cf : f.cf.length < 2 ^ 16
  kvCount : f.kvPairs.length < 2 ^ 32
  kvPairs : ∀ kv ∈ f.kvPairs, kv.1.length < 2 ^ 32 ∧ kv.2.length < 2 ^ 32
  checksum : f.checksum < 2 ^ 32

structure SnapshotData.Fits (sd : SnapshotData) : Prop where
  regionID : sd.regionID < 2 ^ 64
  version : sd.version < 2 ^ 64
  startKey : sd.startKey.length < 2 ^ 32
  endKey : sd.endKey.length < 2 ^ 32
  cfCount : sd.cfFiles.length < 2 ^ 32
  cfFiles : ∀ f ∈ sd.cfFiles, f.Fits

theorem reads_file (h : f.Fits) (i : ℕ) :
    (readFile i).Reads f.marshal f := by
  have hheader : (readHeader i).Reads
      (putSized 2 f.cf ++ (putUint 4 f.kvPairs.length ++ putUint 4 f.checksum))
      (f.cf, f.kvPairs.length, f.checksum) :=
    (reads_sized h.cf).bind (Reads.need ((reads_uint h.kvCount).bind ((reads_uint h.checksum).map _))
      (by simp [length_putUint]))
  refine hheader.bind fun rest => ?_
  refine (reads_repeated (fun j kv hkv => ?_) 0).map _ rest
  exact (reads_sized (h.kvPairs kv hkv).1).bind ((reads_sized (h.kvPairs kv hkv).2).map _)

theorem reads_snapshotData (h : sd.Fits) :
    (readBounds.bind readFiles).Reads (marshalSnapshotData sd) sd := by
  have hbounds : readBounds.Reads (putUint 8 sd.regionID ++ (putUint 8 sd.version ++
      (putSized 4 sd.startKey ++ putSized 4 sd.endKey))) { sd with cfFiles := [] } :=
    Reads.need ((reads_uint h.regionID).bind ((reads_uint h.version).bind
      ((reads_sized h.startKey).bind ((reads_sized h.endKey).map _))))
      (by simp [putSized, length_putUint]; omega)
  have hfiles := reads_repeated (fun i f hf => reads_file (h.cfFiles f hf) i) 0
  exact hbounds.bind ((reads_uint h.cfCount).bind (hfiles.map _))

theorem unmarshal_marshal (h : sd.Fits) :
    unmarshalSnapshotData (marshalSnapshotData sd) = .ok sd := by
  have hall := reads_snapshotData h []
  rw [append_nil] at hall
  rw [unmarshalSnapshotData, hall]
  rfl

/-! ### Bad input -/

theorem uint_error : uint k data = .error e ↔ data.length < k ∧ .outOfBounds = e := by
  rw [uint, map_error, slice]
  split <;> simp_all

theorem need_error {r : Bytes α} : need n fault r data = .error e ↔
    data.length < n ∧ fault = e ∨ n ≤ data.length ∧ r data = .error e := by
  rw [need, ← not_lt]
  split <;> simp_all

theorem length_of_uint (h : uint k data = .ok (n, rest)) :
    rest.length + k = data.length := by
  unfold uint Reader.map slice at h
  split at h
  · cases h
  · cases h
    rw [length_drop]
    omega

/-- No read of `r` leaves the input. -/
def Guarded (r : Bytes α) : Prop := ∀ data, r data ≠ .error .outOfBounds

theorem Guarded.bind {r : Bytes α} {r' : α → Bytes α'} (h : Guarded r)
    (h' : ∀ a, Guarded (r' a)) : Guarded (r.bind r') := by
  intro data he
  rcases bind_error.mp he with he | ⟨a, rest, -, he⟩
  · exact h data he
  · exact h' a rest he

theorem Guarded.map {r : Bytes α} (h : Guarded r) (f : α → α') : Guarded (r.map f) :=
  fun data he => h data (map_error.mp he)

theorem guarded_sized (k : ℕ) (length bytes : Field) : Guarded (sized k length bytes) := by
  intro data he
  simp only [sized, need_error, bind_error, uint_error, slice] at he
  grind

theorem guarded_repeated (h : ∀ i, Guarded (r i)) (n i : ℕ) :
    Guarded (repeated r i n) := by
  induction n generalizing i with
  | zero => exact fun data he => by cases he
  | succ n ih => exact (h i).bind fun a => (ih (i + 1)).map _

theorem guarded_readHeader (i : ℕ) : Guarded (readHeader i) := by
  refine (guarded_sized 2 _ _).bind fun cf data he => ?_
  simp only [need_error, bind_error, map_error, uint_error] at he
  rcases he with ⟨-, he⟩ | ⟨hlen, ⟨hlt, -⟩ | ⟨_, rest, hok, hlt, -⟩⟩
  · cases he
  · omega
  · have := length_of_uint hok
    omega

theorem guarded_readFile (i : ℕ) : Guarded (readFile i) := by
  refine (guarded_readHeader i).bind fun h => (guarded_repeated (fun j => ?_) h.2.1 0).map _
  exact (guarded_sized 4 _ _).bind fun _ => (guarded_sized 4 _ _).map _

theorem guarded_readBounds : Guarded readBounds := by
  intro data he
  rcases need_error.mp he with ⟨-, he⟩ | ⟨hlen, he⟩
  · cases he
  · rcases bind_error.mp he with he | ⟨_, rest, hok, he⟩
    · have := (uint_error.mp he).1
      omega
    · rcases bind_error.mp he with he | ⟨_, rest', -, he⟩
      · have := (uint_error.mp he).1
        have := length_of_uint hok
        omega
      · exact ((guarded_sized 4 _ _).bind fun _ => (guarded_sized 4 _ _).map _) rest' he

/-- The reader panics exactly when fewer than four bytes are left behind the end key. -/
theorem panics_iff : unmarshalSnapshotData data = .error .outOfBounds ↔
    ∃ sd behind, readBounds data = .ok (sd, behind) ∧ behind.length < 4 := by
  have hmap : unmarshalSnapshotData data = .error .outOfBounds ↔
      readBounds.bind readFiles data = .error .outOfBounds := by
    rw [unmarshalSnapshotData]
    cases readBounds.bind readFiles data <;> simp [Except.map]
  rw [hmap, bind_error]
  constructor
  · rintro (he | ⟨sd, behind, hsd, he⟩)
    · exact absurd he (guarded_readBounds data)
    · rcases bind_error.mp he with he | ⟨count, rest, -, he⟩
      · exact ⟨sd, behind, hsd, (uint_error.mp he).1⟩
      · exact absurd he ((guarded_repeated guarded_readFile count 0).map _ rest)
  · rintro ⟨sd, behind, hsd, hlt⟩
    exact .inr ⟨sd, behind, hsd, bind_error.mpr (.inl (uint_error.mpr ⟨hlt, rfl⟩))⟩

/-! ### What is allocated -/

theorem length_repeated (hr : ∀ i data a rest, r i data = .ok (a, rest) → rest.length < data.length)
    (h : repeated r i n data = .ok (as, rest)) : as.length = n ∧ n + rest.length ≤ data.length := by
  induction n generalizing i data as with
  | zero =>
    cases h
    exact ⟨rfl, (Nat.zero_add _).le⟩
  | succ n ih =>
    obtain ⟨a, mid, ha, h⟩ := bind_ok.mp h
    obtain ⟨as', has, rfl⟩ := map_ok.mp h
    obtain ⟨hlen, hle⟩ := ih has
    have := hr i data a mid ha
    exact ⟨by rw [length_cons, hlen], by omega⟩

theorem length_sized (h : sized k length bytes data = .ok (bs, rest)) :
    rest.length + k ≤ data.length := by
  unfold sized need at h
  split at h
  · cases h
  · obtain ⟨n, mid, hn, h⟩ := bind_ok.mp h
    have hmid := length_of_uint hn
    unfold slice at h
    split_ifs at h
    cases h
    rw [length_drop]
    omega

theorem length_pair {j : ℕ} {kv : List UInt8 × List UInt8} (h : readPair i j data = .ok (kv, rest)) :
    rest.length < data.length := by
  obtain ⟨key, mid, hkey, h⟩ := bind_ok.mp h
  obtain ⟨value, hvalue, -⟩ := map_ok.mp h
  have := length_sized hkey
  have := length_sized hvalue
  omega

theorem length_header {h : List UInt8 × ℕ × ℕ} (hh : readHeader i data = .ok (h, rest)) :
    rest.length ≤ data.length := by
  obtain ⟨cf, mid, hcf, hh⟩ := bind_ok.mp hh
  unfold need at hh
  split at hh
  · cases hh
  · obtain ⟨count, mid', hcount, hh⟩ := bind_ok.mp hh
    obtain ⟨checksum, hchecksum, -⟩ := map_ok.mp hh
    have := length_sized hcf
    have := length_of_uint hcount
    have := length_of_uint hchecksum
    omega

/-- A family that is read has as many pairs as its header says, and takes a byte for each. -/
theorem length_file (h : readFile i data = .ok (f, rest)) :
    (∃ hd mid, readHeader i data = .ok (hd, mid) ∧ hd.2.1 = f.kvPairs.length) ∧
      f.kvPairs.length + rest.length ≤ data.length := by
  obtain ⟨hd, mid, hhd, h⟩ := bind_ok.mp h
  obtain ⟨kvPairs, hpairs, rfl⟩ := map_ok.mp h
  obtain ⟨hlen, hle⟩ := length_repeated (fun _ _ _ _ => length_pair) hpairs
  have := length_header hhd
  exact ⟨⟨hd, mid, hhd, hlen.symm⟩, by dsimp only; omega⟩

theorem madeFiles_of_read (h : repeated readFile i files.length body = .ok (files, tail)) (m : ℕ) :
    madeFiles i (files.length + m) body =
        files.map (·.kvPairs.length) ++ madeFiles (i + files.length) m tail ∧
      (files.map (·.kvPairs.length)).sum + tail.length ≤ body.length := by
  induction files generalizing i body with
  | nil =>
    cases h
    simp
  | cons f files ih =>
    obtain ⟨f', rest, hf, h⟩ := bind_ok.mp h
    obtain ⟨files', hfiles, heq⟩ := map_ok.mp h
    cases heq
    obtain ⟨⟨hd, mid, hhd, hcount⟩, hle⟩ := length_file hf
    obtain ⟨hmade, hsum⟩ := ih hfiles
    rw [length_cons, Nat.add_right_comm, madeFiles, hhd, hf, map_cons, sum_cons]
    dsimp only
    rw [hcount, hmade, Nat.add_right_comm, Nat.add_assoc]
    exact ⟨rfl, by omega⟩

/-- The loop over the families ends with the last one or at one that cannot be read. -/
theorem exists_end (n i : ℕ) (body : List UInt8) : ∃ files tail, files.length ≤ n ∧
    repeated readFile i files.length body = .ok (files, tail) ∧
      (files.length = n ∨ ∃ e, readFile (i + files.length) tail = .error e) := by
  induction n generalizing i body with
  | zero => exact ⟨[], body, le_rfl, rfl, .inl rfl⟩
  | succ n ih =>
    cases hf : readFile i body with
    | error e => exact ⟨[], body, Nat.zero_le _, rfl, .inr ⟨e, hf⟩⟩
    | ok p =>
      obtain ⟨files, tail, hle, hread, hend⟩ := ih (i + 1) p.2
      refine ⟨p.1 :: files, tail, Nat.succ_le_succ hle,
        bind_ok.mpr ⟨p.1, p.2, hf, map_ok.mpr ⟨files, hread, rfl⟩⟩, ?_⟩
      rw [length_cons, ← Nat.add_assoc, Nat.add_right_comm]
      exact hend.imp (congrArg Nat.succ) id

theorem made_eq {behind : List UInt8} {cfCount : ℕ}
    (hsd : readBounds data = .ok (sd, behind)) (hcount : uint 4 behind = .ok (cfCount, body)) :
    made data = madeFiles 0 cfCount body := by
  rw [made, bind_ok.mpr ⟨sd, behind, hsd, hcount⟩]

theorem length_bounds (h : readBounds data = .ok (sd, rest)) :
    rest.length ≤ data.length := by
  unfold readBounds need at h
  split at h
  · cases h
  · obtain ⟨_, _, h₁, h⟩ := bind_ok.mp h
    obtain ⟨_, _, h₂, h⟩ := bind_ok.mp h
    obtain ⟨_, _, h₃, h⟩ := bind_ok.mp h
    obtain ⟨_, h₄, -⟩ := map_ok.mp h
    have := length_of_uint h₁
    have := length_of_uint h₂
    have := length_sized h₃
    have := length_sized h₄
    omega

theorem CountsFit.sum_made (h : CountsFit data) : (made data).sum ≤ data.length := by
  cases hbounds : readBounds data with
  | error e =>
    rw [made, bind_error.mpr (.inl hbounds)]
    exact Nat.zero_le _
  | ok p =>
    obtain ⟨hfour, hfit⟩ := h p.1 p.2 hbounds
    cases hcount : uint 4 p.2 with
    | error e => exact absurd (uint_error.mp hcount).1 (not_lt.mpr hfour)
    | ok q =>
      obtain ⟨files, tail, hle, hread, hend⟩ := exists_end q.1 0 q.2
      obtain ⟨hmade, hsum⟩ := madeFiles_of_read hread (q.1 - files.length)
      rw [Nat.add_sub_cancel' hle, Nat.zero_add] at hmade
      have hbody := length_of_uint hcount
      have hbehind := length_bounds hbounds
      rw [made_eq hbounds hcount, hmade, sum_append]
      -- the families that are read are bounded by their bytes, the one that is not by the condition
      rcases Nat.lt_or_ge files.length q.1 with hlt | hge
      · obtain ⟨e, he⟩ := hend.resolve_left hlt.ne
        rw [Nat.zero_add] at he
        obtain ⟨m, hm⟩ := Nat.exists_eq_add_of_lt hlt
        rw [show q.1 - files.length = m + 1 by omega, madeFiles, he]
        cases hhd : readHeader files.length tail with
        | error e => simpa using by omega
        | ok hd => simpa using hfit q.1 q.2 files tail hd.1 hd.2 e hcount hread hlt hhd he
      · rw [Nat.sub_eq_zero_of_le hge, madeFiles]
        simpa using by omega

theorem CountsFit.of_sum_made (hpanic : unmarshalSnapshotData data ≠ .error .outOfBounds)
    (hsum : (made data).sum ≤ data.length) : CountsFit data := by
  intro sd behind hsd
  refine ⟨not_lt.mp fun hlt => hpanic (panics_iff.mpr ⟨sd, behind, hsd, hlt⟩), ?_⟩
  intro cfCount body files tail h rest e hcount hread hlt hhd he
  obtain ⟨hmade, -⟩ := madeFiles_of_read hread (cfCount - files.length)
  obtain ⟨m, hm⟩ := Nat.exists_eq_add_of_lt hlt
  rw [made_eq hsd hcount, show cfCount = files.length + (cfCount - files.length) by omega, hmade,
    show cfCount - files.length = m + 1 by omega, madeFiles, Nat.zero_add, hhd, he] at hsum
  simpa using hsum

theorem repeated_error (h : repeated readFile i files.length body = .ok (files, tail))
    (he : readFile (i + files.length) tail = .error e) (hlt : files.length < n) :
    repeated readFile i n body = .error e := by
  obtain ⟨n, rfl⟩ := Nat.exists_eq_succ_of_ne_zero (Nat.ne_zero_of_lt hlt)
  induction files generalizing i body n with
  | nil =>
    cases h
    exact bind_error.mpr (.inl he)
  | cons f files ih =>
    obtain ⟨f', rest, hf, h⟩ := bind_ok.mp h
    obtain ⟨files', hfiles, heq⟩ := map_ok.mp h
    cases heq
    rw [length_cons] at hlt he
    obtain ⟨n, rfl⟩ := Nat.exists_eq_succ_of_ne_zero (n := n) (by omega)
    refine bind_error.mpr (.inr ⟨f, rest, hf, map_error.mpr (ih hfiles ?_ n (by omega))⟩)
    rwa [Nat.add_assoc, Nat.add_comm 1]

theorem CountsFit.of_ok (h : unmarshalSnapshotData data = .ok sd) :
    CountsFit data := by
  intro sd' behind hsd
  rw [unmarshalSnapshotData] at h
  cases hall : readBounds.bind readFiles data with
  | error e =>
    rw [hall] at h
    cases h
  | ok p =>
    obtain ⟨_, _, hsd', hfiles⟩ := bind_ok.mp hall
    cases hsd.symm.trans hsd'
    obtain ⟨cfCount, body, hcount, hfiles⟩ := bind_ok.mp hfiles
    have hbody := length_of_uint hcount
    refine ⟨by omega, ?_⟩
    intro cfCount' body' files tail hd rest e hcount' hread hlt hhd he
    cases hcount.symm.trans hcount'
    rw [map_error.mpr (repeated_error hread (by rwa [Nat.zero_add]) hlt)] at hfiles
    cases hfiles

theorem robust_iff_countsFit : Robust data ↔ CountsFit data := by
  refine ⟨fun h => .of_sum_made h.1 h.2, fun h => ⟨fun hpanic => ?_, h.sum_made⟩⟩
  obtain ⟨sd, behind, hsd, hlt⟩ := panics_iff.mp hpanic
  exact absurd (h sd behind hsd).1 (not_le.mpr hlt)

/-- **Snapshots survive serialization, within the bounds of a robust reader; on any input the
reader is robust exactly when its counts fit.** -/
theorem snapshotData_wire (sd : { sd : SnapshotData // sd.Fits }) (data : List UInt8) :
    unmarshalSnapshotData (marshalSnapshotData sd) = .ok sd ∧ Robust (marshalSnapshotData sd) ∧
      (Robust data ↔ CountsFit data) :=
  have hround := unmarshal_marshal sd.2
  ⟨hround, robust_iff_countsFit.mpr (.of_ok hround), robust_iff_countsFit⟩

theorem unguarded_reads : ¬ Robust (replicate 24 0) ∧
    unmarshalSnapshotData (replicate 24 0) = .error .outOfBounds ∧
      ∃ data, data.length = 38 ∧ made data = [2 ^ 32 - 1] :=
  ⟨fun h => h.1 (by decide), by decide,
    replicate 24 0 ++ [0, 0, 0, 1, 0, 0, 255, 255, 255, 255, 0, 0, 0, 0], by decide, by decide⟩

end SnapshotWire
