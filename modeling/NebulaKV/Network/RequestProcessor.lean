/-
# What a batch reports

`RequestProcessor::batch_put` checks the whole batch, then puts one entry after the other and counts
those whose `put` returned. Every `put` runs over a store on a disk that may fail, and what it counts is
NOT what the store holds: an entry that got as far as the memtables stays when the flush, the compaction
or the reset of the log behind it fails. `landed` counts the entries that get there, `returned` the ones
whose `put` returns; the two differ by the one entry that fails behind the memtables.

So the report is exact iff the entries that landed uncounted leave every key as the counted ones have
made it (`Harmless`); with fewer than 2^32 entries that is one entry, and it must write the value that
`get` showed already (`harmless_iff`).
-/
import NebulaKV.Lsm.FaultyStore

namespace NebulaKV.Network

open Lsm Effects Containers
open PersistentKeyValueStore (Sound Room Landed Unseen lands)

/-! ## The processor -/

inductive ApiErrorCode where
  | None
  | InvalidArgument
  | ResourceExhausted
  | DeadlineExceeded
  | Unavailable
  | Internal
  deriving Repr, DecidableEq

structure ApiError where
  code : ApiErrorCode := .None
  message : String := ""
  deriving Repr, DecidableEq

/-- `operator bool`. -/
def ApiError.isSet (error : ApiError) : Bool := error.code ≠ .None

structure PutResult where
  success : Bool := false
  sequenceNumber : Nat := 0
  error : ApiError := {}
  deriving Repr, DecidableEq

structure BatchPutResult where
  success : Bool := false
  writesApplied : Nat := 0
  lastSequenceNumber : Nat := 0
  error : ApiError := {}
  deriving Repr, DecidableEq

structure RequestProcessorOptions where
  maxBatchEntries : Nat := 1024
  maxBatchBytes : Nat := 8 * 1024 * 1024

structure RequestProcessor where
  options : RequestProcessorOptions

def u32 : Nat := 2 ^ 32

def mapException : Error → ApiError
  | .invalidArgument what => ⟨.InvalidArgument, what⟩
  | .lengthError what => ⟨.InvalidArgument, what⟩
  | error => ⟨.Internal, error.what⟩

/-- A store on a disk that may fail. -/
abbrev FaultyStore := UnderFaults PersistentKeyValueStore Error

def lastSequenceNumber (s : FaultyStore) : Nat := s.state.memtables.lastSequenceNumber

namespace RequestProcessor

def create (options : RequestProcessorOptions) : Except Error RequestProcessor := do
  refuse (options.maxBatchEntries = 0)
    (.invalidArgument "maximum batch entries must be greater than zero")
  refuse (options.maxBatchBytes = 0)
    (.invalidArgument "maximum batch bytes must be greater than zero")
  return ⟨options⟩

def put (key value : Bytes) (s : FaultyStore) : PutResult × FaultyStore :=
  match PersistentKeyValueStore.Faulty.put key value s with
  | (.ok _, t) => (⟨true, lastSequenceNumber t, {}⟩, t)
  | (.error e, t) => (⟨false, lastSequenceNumber t, mapException e⟩, t)

/-- The loop of `validate_batch`, with the bytes so far. -/
def validateEntries (maxBatchBytes : Nat) : Nat → List (Bytes × Bytes) → ApiError
  | _, [] => {}
  | totalBytes, (key, value) :: rest =>
    match validateKey key, validateValue value with
    | .error e, _ => mapException e
    | _, .error e => mapException e
    | .ok _, .ok _ =>
      -- written so that the sum is not formed before it is known to fit
      if key.length > u64 - 1 - totalBytes ∨ value.length > u64 - 1 - totalBytes - key.length then
        ⟨.InvalidArgument, "batch byte size overflow"⟩
      else if totalBytes + (key.length + value.length) > maxBatchBytes then
        ⟨.InvalidArgument, "batch exceeds the maximum encoded payload size"⟩
      else validateEntries maxBatchBytes (totalBytes + (key.length + value.length)) rest

def validateBatch (processor : RequestProcessor) (entries : List (Bytes × Bytes)) : ApiError :=
  if entries = [] then ⟨.InvalidArgument, "batch must contain at least one entry"⟩
  else if entries.length > processor.options.maxBatchEntries then
    ⟨.InvalidArgument, "batch exceeds the maximum number of entries"⟩
  else validateEntries processor.options.maxBatchBytes 0 entries

/-- The loop of `batch_put`; the counter has 32 bits. -/
def putEntries (writesApplied : Nat) :
    List (Bytes × Bytes) → FaultyStore → BatchPutResult × FaultyStore
  | [], s => (⟨true, writesApplied, lastSequenceNumber s, {}⟩, s)
  | (key, value) :: rest, s =>
    let (result, t) := put key value s
    -- what was put before stays, whatever this one has left
    if !result.success then (⟨false, writesApplied, lastSequenceNumber t, result.error⟩, t)
    else putEntries ((writesApplied + 1) % u32) rest t

def batchPut (processor : RequestProcessor) (entries : List (Bytes × Bytes)) (s : FaultyStore) :
    BatchPutResult × FaultyStore :=
  if (processor.validateBatch entries).isSet then
    (⟨false, 0, lastSequenceNumber s, processor.validateBatch entries⟩, s)
  else putEntries 0 entries s

/-! ## What is accepted -/

theorem isSet_mapException (e : Error) : (mapException e).isSet = true := by
  cases e <;> rfl

theorem validateEntries_valid {maxBatchBytes totalBytes : Nat} {entries : List (Bytes × Bytes)}
    (h : (validateEntries maxBatchBytes totalBytes entries).isSet = false) :
    ∀ entry ∈ entries, ValidKey entry.1 ∧ ValidValue entry.2 := by
  induction entries generalizing totalBytes with
  | nil =>
    intro entry hentry
    cases hentry
  | cons first rest ih =>
    obtain ⟨key, value⟩ := first
    unfold validateEntries at h
    cases hkey : validateKey key with
    | error e =>
      rw [hkey] at h
      exact absurd (isSet_mapException e) (by rw [h]; decide)
    | ok u =>
      cases hvalue : validateValue value with
      | error e =>
        rw [hkey, hvalue] at h
        exact absurd (isSet_mapException e) (by rw [h]; decide)
      | ok v =>
        rw [hkey, hvalue] at h
        dsimp only at h
        split_ifs at h
        · cases h
        · cases h
        · exact List.forall_mem_cons.mpr
            ⟨⟨validateKey_eq_ok.mp hkey, validateValue_eq_ok.mp hvalue⟩, ih h⟩

theorem validateBatch_valid {processor : RequestProcessor} {entries : List (Bytes × Bytes)}
    (h : (processor.validateBatch entries).isSet = false) :
    ∀ entry ∈ entries, ValidKey entry.1 ∧ ValidValue entry.2 := by
  unfold validateBatch at h
  split_ifs at h
  · cases h
  · cases h
  · exact validateEntries_valid h

/-! ## What a batch does -/

/-- The map with entries put in order. -/
def putAll (map : Bytes → Option Bytes) (entries : List (Bytes × Bytes)) : Bytes → Option Bytes :=
  entries.foldl (fun map entry => Function.update map entry.1 (some entry.2)) map

theorem putAll_cons (map : Bytes → Option Bytes) (entry : Bytes × Bytes)
    (entries : List (Bytes × Bytes)) :
    putAll map (entry :: entries) = putAll (Function.update map entry.1 (some entry.2)) entries := rfl

theorem putAll_append (map : Bytes → Option Bytes) (entries entries' : List (Bytes × Bytes)) :
    putAll map (entries ++ entries') = putAll (putAll map entries) entries' :=
  List.foldl_append

theorem putAll_congr {map map' : Bytes → Option Bytes} {key : Bytes} (h : map key = map' key)
    (entries : List (Bytes × Bytes)) : putAll map entries key = putAll map' entries key := by
  induction entries generalizing map map' with
  | nil => exact h
  | cons entry rest ih =>
    rw [putAll_cons, putAll_cons]
    refine ih ?_
    rw [Function.update_apply, Function.update_apply, h]

/-- How many of the puts return. -/
def returned : List (Bytes × Bytes) → FaultyStore → Nat
  | [], _ => 0
  | (key, value) :: rest, s =>
    match PersistentKeyValueStore.Faulty.put key value s with
    | (.ok _, t) => returned rest t + 1
    | (.error _, _) => 0

/-- How many of the entries get as far as the memtables. -/
def landed : List (Bytes × Bytes) → FaultyStore → Nat
  | [], _ => 0
  | (key, value) :: rest, s =>
    match PersistentKeyValueStore.Faulty.put key value s with
    | (.ok _, t) => landed rest t + 1
    | (.error _, _) => if lands key value s then 1 else 0

theorem returned_le_landed (entries : List (Bytes × Bytes)) (s : FaultyStore) :
    returned entries s ≤ landed entries s ∧ landed entries s ≤ returned entries s + 1 ∧
      returned entries s ≤ entries.length := by
  induction entries generalizing s with
  | nil => exact ⟨le_rfl, Nat.zero_le _, le_rfl⟩
  | cons entry rest ih =>
    obtain ⟨key, value⟩ := entry
    unfold returned landed
    rcases PersistentKeyValueStore.Faulty.put key value s with ⟨result, t⟩
    cases result with
    | ok u =>
      obtain ⟨hle, hnext, hlength⟩ := ih t
      refine ⟨Nat.succ_le_succ hle, Nat.succ_le_succ hnext, ?_⟩
      rw [List.length_cons]
      exact Nat.succ_le_succ hlength
    | error e =>
      refine ⟨Nat.zero_le _, ?_, Nat.zero_le _⟩
      dsimp only
      split_ifs <;> decide

section Batch

variable {s : FaultyStore} {lag : Nat}
variable {entries : List (Bytes × Bytes)}

/-- The counter follows the puts that return. -/
theorem writesApplied_putEntries {writesApplied : Nat} (hcount : writesApplied < u32)
    (entries : List (Bytes × Bytes)) (s : FaultyStore) :
    (putEntries writesApplied entries s).1.writesApplied =
      (writesApplied + returned entries s) % u32 := by
  induction entries generalizing writesApplied s with
  | nil => exact (Nat.mod_eq_of_lt hcount).symm
  | cons entry rest ih =>
    obtain ⟨key, value⟩ := entry
    unfold putEntries returned put
    rcases PersistentKeyValueStore.Faulty.put key value s with ⟨result, t⟩
    cases result with
    | ok u =>
      show (putEntries ((writesApplied + 1) % u32) rest t).1.writesApplied = _
      rw [ih (Nat.mod_lt _ (by decide)), Nat.mod_add_mod]
      congr 1
      show writesApplied + 1 + returned rest t = writesApplied + (returned rest t + 1)
      omega
    | error e => exact (Nat.mod_eq_of_lt hcount).symm

/-- **The batch does what landed.** Its writes are the first `landed` entries, in order. -/
theorem putEntries_landed (h : s.state.Sound lag)
    (hvalid : ∀ entry ∈ entries, ValidKey entry.1 ∧ ValidValue entry.2)
    (hroom : s.state.Room lag entries.length) (writesApplied : Nat) :
    (putEntries writesApplied entries s).2.state.Sound lag ∧
      ∀ key, (putEntries writesApplied entries s).2.state.value? key =
        putAll s.state.value? (entries.take (landed entries s)) key := by
  induction entries generalizing writesApplied s with
  | nil => exact ⟨h, fun key => rfl⟩
  | cons entry rest ih =>
    obtain ⟨key, value⟩ := entry
    obtain ⟨hkey, hvalue⟩ := hvalid (key, value) (by simp)
    have hroom₁ : s.state.Room lag 1 := hroom.imp_right fun hlt => by
      rw [List.length_cons] at hlt
      omega
    have hlanded : lands key value s = true → _ :=
      PersistentKeyValueStore.put_landed h hkey hvalue hroom₁
    have hunseen : lands key value s = false → _ := PersistentKeyValueStore.put_unseen h hkey
    unfold putEntries landed put
    rcases hrun : PersistentKeyValueStore.Faulty.put key value s with ⟨result, t⟩
    rw [hrun] at hlanded hunseen
    have hput : ∀ hl : Landed s.state key value t.state lag,
        t.state.value? = Function.update s.state.value? key (some value) := fun hl =>
      funext fun k => by rw [hl.value_eq k, Function.update_apply]
    cases result with
    | ok u =>
      -- a `put` that returns has landed
      have hlands : lands key value s = true := by
        by_contra hnot
        obtain ⟨⟨e, he⟩, -⟩ := hunseen (by simpa using hnot)
        cases he
      have hl := hlanded hlands
      have hroom' : t.state.Room lag rest.length := hroom.imp_right fun hlt => by
        rw [List.length_cons] at hlt
        rw [hl.last]
        omega
      obtain ⟨hsound, hshown⟩ := ih hl.sound (List.forall_mem_cons.mp hvalid).2 hroom'
        ((writesApplied + 1) % u32)
      refine ⟨hsound, fun k => ?_⟩
      rw [List.take_succ_cons, putAll_cons, ← hput hl]
      exact hshown k
    | error e =>
      cases hlands : lands key value s with
      | true =>
        have hl := hlanded hlands
        refine ⟨hl.sound, fun k => ?_⟩
        show t.state.value? k = putAll s.state.value? [(key, value)] k
        rw [hput hl]
        rfl
      | false =>
        obtain ⟨-, hu⟩ := hunseen hlands
        exact ⟨hu.sound, hu.value_eq⟩

/-! ## What a batch reports -/

/-- The map that `get` shows. -/
def visible (store : PersistentKeyValueStore) (key : Bytes) : Option Bytes :=
  match (PersistentKeyValueStore.get key store).1 with
  | .ok value => value
  | .error _ => none

/-- **The report is exact**: `get` shows the map from before with the first `writes_applied` entries put
in order, and a batch that is refused has changed nothing. -/
def ReportsExactly (processor : RequestProcessor) (entries : List (Bytes × Bytes)) (s : FaultyStore) :
    Prop :=
  (∀ key, ValidKey key → (PersistentKeyValueStore.get key (processor.batchPut entries s).2.state).1 =
      .ok (putAll (visible s.state)
        (entries.take (processor.batchPut entries s).1.writesApplied) key)) ∧
    ((processor.validateBatch entries).isSet = true →
      (processor.batchPut entries s).1.writesApplied = 0 ∧ (processor.batchPut entries s).2 = s)

/-- The entries that get as far as the memtables and are not counted. -/
def uncounted (entries : List (Bytes × Bytes)) (s : FaultyStore) : List (Bytes × Bytes) :=
  (entries.take (landed entries s)).drop (returned entries s % u32)

/-- What is not counted changes nothing. -/
def Harmless (entries : List (Bytes × Bytes)) (s : FaultyStore) : Prop :=
  ∀ key, ValidKey key →
    putAll (putAll (visible s.state) (entries.take (returned entries s % u32)))
        (uncounted entries s) key =
      putAll (visible s.state) (entries.take (returned entries s % u32)) key

theorem visible_eq (h : s.state.Sound lag) {key : Bytes} (hkey : ValidKey key) :
    visible s.state key = s.state.value? key := by
  obtain ⟨t, hget, -⟩ := h.get hkey
  unfold visible
  rw [hget]

/-- The counted entries, then the others. -/
theorem take_landed (entries : List (Bytes × Bytes)) (s : FaultyStore) :
    entries.take (landed entries s) =
      entries.take (returned entries s % u32) ++ uncounted entries s := by
  have hle : returned entries s % u32 ≤ landed entries s :=
    (Nat.mod_le _ _).trans (returned_le_landed entries s).1
  unfold uncounted
  conv_lhs => rw [← List.take_append_drop (returned entries s % u32)
    (entries.take (landed entries s)), List.take_take, min_eq_left hle]

/-- It is refused, or what landed uncounted changes nothing. -/
theorem reportsExactly_iff (processor : RequestProcessor) (entries : List (Bytes × Bytes))
    (h : s.state.Sound lag) (hroom : s.state.Room lag entries.length) :
    processor.ReportsExactly entries s ↔
      ((processor.validateBatch entries).isSet = true ∨ Harmless entries s) := by
  cases hset : (processor.validateBatch entries).isSet with
  | true =>
    have hbatch : processor.batchPut entries s =
        (⟨false, 0, lastSequenceNumber s, processor.validateBatch entries⟩, s) := if_pos hset
    refine iff_of_true ⟨fun key hkey => ?_, fun _ => ?_⟩ (Or.inl rfl)
    · obtain ⟨t, hget, -⟩ := h.get hkey
      rw [hbatch, hget, ← visible_eq h hkey]
      rfl
    · rw [hbatch]
      exact ⟨rfl, rfl⟩
  | false =>
    have hbatch : processor.batchPut entries s = putEntries 0 entries s :=
      if_neg (by rw [hset]; decide)
    obtain ⟨hsound, hshown⟩ := putEntries_landed h (validateBatch_valid hset) hroom 0
    have hcount := writesApplied_putEntries (show 0 < u32 by decide) entries s
    rw [Nat.zero_add] at hcount
    have hlanded : ∀ key, ValidKey key →
        (PersistentKeyValueStore.get key (putEntries 0 entries s).2.state).1 =
          .ok (putAll (putAll (visible s.state) (entries.take (returned entries s % u32)))
            (uncounted entries s) key) := fun key hkey => by
      obtain ⟨t, hget, -⟩ := hsound.get hkey
      rw [hget, hshown key, ← putAll_append, ← take_landed,
        putAll_congr (visible_eq h hkey).symm]
    unfold ReportsExactly Harmless
    rw [hbatch, hset, hcount]
    refine ⟨fun hexact => Or.inr fun key hkey => ?_, fun hor => ⟨fun key hkey => ?_, ?_⟩⟩
    · exact Except.ok.inj ((hlanded key hkey).symm.trans (hexact.1 key hkey))
    · rw [hlanded key hkey, hor.resolve_left (by decide) key hkey]
    · intro hrefused
      cases hrefused

/-- Every entry that landed is counted. -/
theorem harmless_of_counted (h : uncounted entries s = []) : Harmless entries s := by
  intro key _
  rw [h]
  rfl

/-- With fewer entries than the counter can say, at most one lands uncounted: the one whose `put` failed
behind the memtables. It must write what `get` showed. -/
theorem harmless_iff (hfew : entries.length < u32) (hvalid : ∀ entry ∈ entries, ValidKey entry.1) :
    Harmless entries s ↔ ∀ entry ∈ uncounted entries s,
      putAll (visible s.state) (entries.take (returned entries s)) entry.1 = some entry.2 := by
  obtain ⟨hle, hnext, hlength⟩ := returned_le_landed entries s
  have hmod : returned entries s % u32 = returned entries s :=
    Nat.mod_eq_of_lt (hlength.trans_lt hfew)
  have hone : (uncounted entries s).length ≤ 1 := by
    unfold uncounted
    rw [hmod, List.length_drop, List.length_take]
    omega
  have hsub : ∀ entry ∈ uncounted entries s, entry ∈ entries := fun entry hentry =>
    List.mem_of_mem_take (List.mem_of_mem_drop hentry)
  rcases hlist : uncounted entries s with _ | ⟨entry, rest⟩
  · exact iff_of_true (harmless_of_counted hlist) fun _ hentry => by cases hentry
  · unfold Harmless
    rw [hmod, hlist]
    rw [hlist] at hone hsub
    obtain rfl : rest = [] := List.eq_nil_of_length_eq_zero (by simpa using hone)
    constructor
    · intro hsame other hother
      obtain rfl := List.mem_singleton.mp hother
      rw [← hsame other.1 (hvalid other (hsub other hother))]
      exact Function.update_self _ _ _
    · intro hshown key _
      rw [putAll_cons, Function.update_eq_self_iff.mpr (hshown entry (by simp)).symm]
      rfl

/-- **When a batch reports what it did**: it is refused, or what landed uncounted changes nothing; with fewer
than 2^32 entries, if the entry that landed uncounted writes what `get` showed. -/
theorem batch_reports_iff (processor : RequestProcessor) (entries : List (Bytes × Bytes))
    (h : s.state.Sound lag) (hroom : s.state.Room lag entries.length) :
    (processor.ReportsExactly entries s ↔
      ((processor.validateBatch entries).isSet = true ∨ Harmless entries s)) ∧
    (entries.length < u32 →
      (processor.ReportsExactly entries s ↔
        ((processor.validateBatch entries).isSet = true ∨ ∀ entry ∈ uncounted entries s,
          putAll (visible s.state) (entries.take (returned entries s)) entry.1 = some entry.2))) := by
  have hiff := reportsExactly_iff processor entries h hroom
  refine ⟨hiff, fun hfew => hiff.trans ?_⟩
  cases hset : (processor.validateBatch entries).isSet with
  | true => exact iff_of_true (Or.inl rfl) (Or.inl rfl)
  | false =>
    have hvalid : ∀ entry ∈ entries, ValidKey entry.1 := fun entry hentry =>
      (validateBatch_valid hset entry hentry).1
    exact or_congr Iff.rfl (harmless_iff hfew hvalid)

end Batch

/-! ## A batch whose log fails, and one whose flush fails -/

/-- Filters of one bit a key, and memtables of this size. -/
def storeOptions (memtableMaxBytes : Nat) : PersistentStoreOptions :=
  { memtableMaxBytes := memtableMaxBytes
    sstables := { bloomSizing := .oneBit } }

/-- Two lookups and the log of the first entry go well, then the log fails. -/
def failingLog : List (Option Error) :=
  [none, none, none, none, none, none, some (.runtimeError "failed to write WAL")]

/-- The lookup and the log go well, then the table cannot be written. -/
def failingFlush : List (Option Error) :=
  [none, none, none, none, some (.runtimeError "failed to fsync temporary SSTable")]

/-- The second entry's log fails: one write is reported, and one is there. -/
theorem batch_reports_iff_log : ∃ store,
    PersistentKeyValueStore.create (storeOptions 1024) OrderedMap.empty {} [] = .ok store ∧
      store.Sound ∧ store.Room 0 2 ∧
      (batchPut ⟨{}⟩ [([1], [7]), ([2], [8])] ⟨store, failingLog⟩).1.writesApplied = 1 ∧
      ReportsExactly ⟨{}⟩ [([1], [7]), ([2], [8])] ⟨store, failingLog⟩ := by
  have hcreate : PersistentKeyValueStore.create (storeOptions 1024) OrderedMap.empty {} [] = .ok _ :=
    rfl
  have hsound := (PersistentKeyValueStore.create_refines hcreate).1.sound
  refine ⟨_, hcreate, hsound, Or.inl rfl, by decide +kernel, ?_⟩
  refine ((batch_reports_iff ⟨{}⟩ [([1], [7]), ([2], [8])] hsound (Or.inl rfl)).2 (by decide)).mpr
    (Or.inr fun entry hentry => ?_)
  exact absurd hentry (List.eq_nil_iff_forall_not_mem.mp (by decide +kernel) entry)

/-- **An entry that is there and is not reported.** -/
theorem failed_flush_uncounted : ∃ store,
    PersistentKeyValueStore.create (storeOptions 1) OrderedMap.empty {} [] = .ok store ∧
      (PersistentKeyValueStore.get [1] store).1 = .ok none ∧
      (batchPut ⟨{}⟩ [([1], [7])] ⟨store, failingFlush⟩).1 =
        ⟨false, 0, 1, ⟨.Internal, "failed to fsync temporary SSTable"⟩⟩ ∧
      (PersistentKeyValueStore.get [1]
        (batchPut ⟨{}⟩ [([1], [7])] ⟨store, failingFlush⟩).2.state).1 = .ok (some [7]) ∧
      ¬ ReportsExactly ⟨{}⟩ [([1], [7])] ⟨store, failingFlush⟩ := by
  refine ⟨_, rfl, by decide +kernel, by decide +kernel, by decide +kernel, fun hexact => ?_⟩
  have hreported := hexact.1 [1] (by decide)
  revert hreported
  decide +kernel

end RequestProcessor

end NebulaKV.Network
