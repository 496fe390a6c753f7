/-
# Runs of the memtables

Any sequence of `put`, `remove`, `add_tombstone`, `rotate_active` and `discard_immutable`. What a call can
do is said once (`Moves`): nothing, one entry with the next sequence number stored in the active table and
perhaps a rotation, a rotation, or one frozen table less. That the order of the tables survives every run
follows from there, and with it that a lookup, which stops at the FIRST table with the key, finds the entry
with the greatest sequence number.

`size()` is another matter. It is a counter that the three writes keep; `discard_immutable` takes a table
away, with the live keys or the tombstones in it, and leaves the counter as it was.
-/
import NebulaKV.Lsm.MemTableOrder
import Mathlib.Algebra.Order.BigOperators.Group.List
import Mathlib.Data.Set.Card
import Mathlib.Tactic.IntervalCases

namespace NebulaKV.Lsm

open Containers

theorem MemTable.insertOrAssign_eq_ok {table table' : MemTable} {key : Bytes} {entry : Entry}
    (h : table.insertOrAssign key entry = .ok table') :
    ∃ usage, table' = table.store key entry usage := by
  obtain ⟨_, -, h⟩ := bind_eq_ok.mp h
  cases hfind : table.entries.find? key with
  | none =>
    rw [hfind] at h
    exact ⟨_, (Except.ok.inj h).symm⟩
  | some existing =>
    rw [hfind] at h
    dsimp only at h
    split_ifs at h
    exact ⟨_, (Except.ok.inj h).symm⟩

namespace MemTableSet

/-! ## Calls -/

inductive Call where
  | put (key value : Bytes)
  | remove (key : Bytes)
  | addTombstone (key : Bytes)
  | rotateActive
  | discardImmutable (generation : Nat)
  deriving DecidableEq

/-- The key of a write. -/
def Call.key : Call → Option Bytes
  | .put key _ | .remove key | .addTombstone key => some key
  | .rotateActive | .discardImmutable _ => none

/-- What a call checks of its arguments. -/
def Call.validate : Call → Except Error Unit
  | .put key value => do
    validateKey key
    validateValue value
  | .remove key | .addTombstone key => validateKey key
  | .rotateActive | .discardImmutable _ => .ok ()

def Call.perform (set : MemTableSet) : Call → Except Error MemTableSet
  | .put key value => set.put key value
  | .remove key => (set.remove key).map Prod.snd
  | .addTombstone key => set.addTombstone key
  | .rotateActive => .ok set.rotateActive.2
  | .discardImmutable generation => .ok (set.discardImmutable generation).2

/-- The set after a call; one that throws has changed nothing. -/
def Call.after (set : MemTableSet) (call : Call) : MemTableSet :=
  match call.perform set with
  | .ok set' => set'
  | .error _ => set

def run (set : MemTableSet) (calls : List Call) : MemTableSet := calls.foldl Call.after set

/-- The entry a call has stored, by what the set shows: the last sequence number has moved. -/
def Call.written (set : MemTableSet) (call : Call) : Option (Bytes × Entry) :=
  if (call.after set).lastSequenceNumber = set.lastSequenceNumber then none
  else call.key.bind fun key => ((call.after set).entryFor key).map fun entry => (key, entry)

/-- All entries that were ever stored, in order. -/
def history (set : MemTableSet) : List Call → List (Bytes × Entry)
  | [] => []
  | call :: rest => (call.written set).toList ++ (call.after set).history rest

variable {set set' start : MemTableSet} {call : Call} {calls : List Call}
variable {table : MemTable} {entry : Entry} {newer older : List MemTable} {usage count : Nat}
  {options : MemTableOptions}
variable {state : Option LookupState} {sequenceNumber : Nat} {log : List (Bytes × Entry)}

theorem run_append (set : MemTableSet) (calls calls' : List Call) :
    set.run (calls ++ calls') = (set.run calls).run calls' :=
  List.foldl_append

theorem history_append (set : MemTableSet) (calls calls' : List Call) :
    set.history (calls ++ calls') = set.history calls ++ (set.run calls).history calls' := by
  induction calls generalizing set with
  | nil => rfl
  | cons call rest ih =>
    show (call.written set).toList ++ (call.after set).history (rest ++ calls') = _
    rw [ih, ← List.append_assoc]
    rfl

/-! ## What a call does -/

/-- The latest entry of the key is a value. -/
def holds (set : MemTableSet) (key : Bytes) : Bool :=
  (set.entryFor key).any fun entry => !entry.deleted

theorem latestState_value (set : MemTableSet) {key : Bytes} (hkey : ValidKey key)
    (h : set.latestStateWithoutValidation key = .ok state) :
    state = some .Value ↔ set.holds key = true := by
  rw [set.latestState_eq hkey] at h
  obtain rfl := Except.ok.inj h
  unfold holds entryFor
  induction set.tables with
  | nil => simp
  | cons table rest ih =>
    rw [List.findSome?_cons, List.findSome?_cons]
    cases table.entries.find? key with
    | none => exact ih
    | some entry => cases hdeleted : entry.deleted <;> simp [hdeleted]

theorem existsKey_eq (set : MemTableSet) {key : Bytes} (hkey : ValidKey key) :
    set.existsKey key = .ok (set.holds key) := by
  unfold existsKey
  rw [validateKey_eq_ok.mpr hkey, ok_bind, set.latestState_eq hkey, ok_bind]
  have hvalue := latestState_value set hkey (set.latestState_eq hkey)
  exact congrArg Except.ok (Bool.eq_iff_iff.mpr (decide_eq_true_iff.trans hvalue))

/-- The counter after an entry of the key has been stored. -/
def recount (set : MemTableSet) (key : Bytes) (entry : Entry) : Nat :=
  if set.holds key then
    if entry.deleted then u64Sub set.liveKeyCount 1 else set.liveKeyCount
  else if entry.deleted then set.liveKeyCount else (set.liveKeyCount + 1) % u64

/-- **All that a call can do.** -/
inductive Moves (set : MemTableSet) (call : Call) : MemTableSet → Prop
  | stays : Moves set call set
  | wrote {key : Bytes} {entry : Entry} {usage : Nat} (hcall : call.key = some key)
      (hvalid : ValidRecord (key, entry)) (hroom : set.lastSequenceNumber ≠ u64 - 1)
      (hseq : entry.sequenceNumber = set.lastSequenceNumber + 1) :
      Moves set call (set.stored key entry usage (set.recount key entry)).rotateIfRequired
  | rotated (hne : set.active.snapshot ≠ []) : Moves set call set.rotate
  | discarded {generation : Nat} (hcall : call = .discardImmutable generation) :
      Moves set call { set with
        immutableTables := set.immutableTables.eraseP (·.generation = generation) }

theorem nextSequenceNumber_eq_ok (h : set.nextSequenceNumber = .ok sequenceNumber) :
    set.lastSequenceNumber ≠ u64 - 1 ∧ sequenceNumber = set.lastSequenceNumber + 1 := by
  unfold nextSequenceNumber at h
  split_ifs at h with hlast
  exact ⟨hlast, (Except.ok.inj h).symm⟩

theorem put_moves {key value : Bytes} (h : set.put key value = .ok set') :
    Moves set (.put key value) set' := by
  obtain ⟨_, hkey, h⟩ := bind_eq_ok.mp h
  obtain ⟨_, hvalue, h⟩ := bind_eq_ok.mp h
  obtain ⟨state, hstate, h⟩ := bind_eq_ok.mp h
  obtain ⟨sequenceNumber, hnext, h⟩ := bind_eq_ok.mp h
  obtain ⟨table, htable, h⟩ := bind_eq_ok.mp h
  have hkey := validateKey_eq_ok.mp hkey
  have hvalue := validateValue_eq_ok.mp hvalue
  obtain ⟨hroom, rfl⟩ := nextSequenceNumber_eq_ok hnext
  obtain ⟨_, -, htable⟩ := bind_eq_ok.mp htable
  obtain ⟨_, -, htable⟩ := bind_eq_ok.mp htable
  obtain ⟨_, -, htable⟩ := bind_eq_ok.mp htable
  obtain ⟨usage, rfl⟩ := MemTable.insertOrAssign_eq_ok htable
  obtain rfl := Except.ok.inj h
  have hcount : (if state = some .Value then set.liveKeyCount else (set.liveKeyCount + 1) % u64) =
      set.recount key ⟨value, set.lastSequenceNumber + 1, false⟩ := by
    unfold recount
    simp only [latestState_value set hkey hstate, Bool.false_eq_true, if_false]
  rw [hcount]
  exact .wrote rfl ⟨hkey, hvalue, Nat.succ_ne_zero _, fun hdeleted => by cases hdeleted⟩ hroom rfl

/-- A tombstone in the active table. -/
theorem tombstone_moves {key : Bytes} (hcall : call.key = some key) (hkey : ValidKey key)
    (hstate : set.latestStateWithoutValidation key = .ok state)
    (hnext : set.nextSequenceNumber = .ok sequenceNumber)
    (htable : set.active.addTombstone key sequenceNumber = .ok table) :
    Moves set call (set.wrote table
      (if state = some .Value then u64Sub set.liveKeyCount 1 else set.liveKeyCount)
      sequenceNumber) := by
  obtain ⟨hroom, rfl⟩ := nextSequenceNumber_eq_ok hnext
  obtain ⟨_, -, htable⟩ := bind_eq_ok.mp htable
  obtain ⟨_, -, htable⟩ := bind_eq_ok.mp htable
  obtain ⟨usage, rfl⟩ := MemTable.insertOrAssign_eq_ok htable
  have hcount : (if state = some .Value then u64Sub set.liveKeyCount 1 else set.liveKeyCount) =
      set.recount key ⟨[], set.lastSequenceNumber + 1, true⟩ := by
    unfold recount
    simp only [latestState_value set hkey hstate, if_true]
  rw [hcount]
  exact .wrote hcall ⟨hkey, Nat.zero_le _, Nat.succ_ne_zero _, fun _ => rfl⟩ hroom rfl

theorem remove_moves {key : Bytes} {removed : Bool} (h : set.remove key = .ok (removed, set')) :
    Moves set (.remove key) set' := by
  obtain ⟨_, hkey, h⟩ := bind_eq_ok.mp h
  obtain ⟨state, hstate, h⟩ := bind_eq_ok.mp h
  split_ifs at h with hdead
  · obtain ⟨-, rfl⟩ := Prod.mk.inj (Except.ok.inj h)
    exact .stays
  · obtain ⟨sequenceNumber, hnext, h⟩ := bind_eq_ok.mp h
    obtain ⟨table, htable, h⟩ := bind_eq_ok.mp h
    obtain ⟨-, rfl⟩ := Prod.mk.inj (Except.ok.inj h)
    have hmoves : Moves set (.remove key) _ :=
      tombstone_moves rfl (validateKey_eq_ok.mp hkey) hstate hnext htable
    rwa [if_pos (not_not.mp hdead)] at hmoves

theorem addTombstone_moves {key : Bytes} (h : set.addTombstone key = .ok set') :
    Moves set (.addTombstone key) set' := by
  obtain ⟨_, hkey, h⟩ := bind_eq_ok.mp h
  obtain ⟨state, hstate, h⟩ := bind_eq_ok.mp h
  obtain ⟨sequenceNumber, hnext, h⟩ := bind_eq_ok.mp h
  obtain ⟨table, htable, h⟩ := bind_eq_ok.mp h
  obtain rfl := Except.ok.inj h
  exact tombstone_moves rfl (validateKey_eq_ok.mp hkey) hstate hnext htable

theorem Call.perform_moves (h : call.perform set = .ok set') : Moves set call set' := by
  cases call with
  | put key value => exact put_moves h
  | remove key =>
    have hmap : (set.remove key).map Prod.snd = .ok set' := h
    cases hremove : set.remove key with
    | error e =>
      rw [hremove] at hmap
      cases hmap
    | ok result =>
      rw [hremove] at hmap
      obtain rfl := Except.ok.inj hmap
      exact remove_moves hremove
  | addTombstone key => exact addTombstone_moves h
  | rotateActive =>
    obtain rfl := Except.ok.inj h
    rcases rotateActive_rotated set with hsame | ⟨hne, hrotate⟩
    · rw [hsame]
      exact .stays
    · rw [hrotate]
      exact .rotated hne
  | discardImmutable generation =>
    obtain rfl := Except.ok.inj h
    unfold MemTableSet.discardImmutable
    split_ifs
    · exact .discarded rfl
    · exact .stays

theorem Call.after_moves (set : MemTableSet) (call : Call) : Moves set call (call.after set) := by
  unfold Call.after
  cases hperform : call.perform set with
  | ok set' => exact perform_moves hperform
  | error e => exact .stays

/-! ## The order survives -/

/-- "Generations and sequence numbers below `2^64 - 1`". -/
def HasRoom (set : MemTableSet) : Prop :=
  set.active.generation < u64 - 1 ∧ set.lastSequenceNumber < u64 - 1

theorem Ordered.rotated (h : set.Ordered) (hroom : set.active.generation < u64 - 1)
    (hrotated : Rotated set set') : set'.Ordered := by
  rcases hrotated with rfl | ⟨hne, rfl⟩
  · exact h
  · exact h.rotate hne (by omega)

theorem Moves.ordered (hmoves : Moves set call set') (h : set.Ordered)
    (hroom : set.active.generation < u64 - 1) : set'.Ordered := by
  cases hmoves with
  | stays => exact h
  | wrote hcall hvalid hlast hseq =>
    exact (h.stored hvalid hseq).rotated hroom (rotateIfRequired_rotated _)
  | rotated hne => exact h.rotate hne (by omega)
  | discarded hcall => exact h.of_sublist List.eraseP_sublist

/-- **Every run** that has room keeps the order. -/
theorem Ordered.run (h : start.Ordered)
    (hroom : ∀ done, done <+: calls → (start.run done).HasRoom) : (start.run calls).Ordered := by
  induction calls using List.reverseRecOn with
  | nil => exact h
  | append_singleton calls call ih =>
    have hbefore : (start.run calls).Ordered :=
      ih fun done hdone => hroom done (hdone.trans (List.prefix_append _ _))
    rw [run_append]
    exact (call.after_moves _).ordered hbefore (hroom calls (List.prefix_append _ _)).1

/-! ## Sequence numbers -/

/-- What a call does to the last sequence number, and to what is stored. -/
theorem Moves.written (hmoves : Moves set call (call.after set)) :
    (call.written set = none ∧ (call.after set).lastSequenceNumber = set.lastSequenceNumber ∧
      ∀ record, (call.after set).Contains record → set.Contains record) ∨
    ∃ record, call.written set = some record ∧
      record.2.sequenceNumber = set.lastSequenceNumber + 1 ∧
      (call.after set).lastSequenceNumber = set.lastSequenceNumber + 1 ∧
      ∀ record', (call.after set).Contains record' → record' = record ∨ set.Contains record' := by
  unfold Call.written
  generalize call.after set = after at hmoves ⊢
  cases hmoves with
  | stays => exact Or.inl ⟨if_pos rfl, rfl, fun _ hrecord => hrecord⟩
  | @wrote key entry usage hcall hvalid hroom hseq =>
    have hrotated := rotateIfRequired_rotated
      (set.stored key entry usage (set.recount key entry))
    refine Or.inr ⟨(key, entry), ?_, hseq, hrotated.last_eq, ?_⟩
    · have hmoved : (set.stored key entry usage (set.recount key entry)).lastSequenceNumber ≠
          set.lastSequenceNumber := Nat.succ_ne_self _
      rw [hrotated.last_eq, if_neg hmoved, hcall]
      show (entryFor _ key).map _ = _
      rw [hrotated.entryFor_eq, entryFor_stored, if_pos rfl]
      rfl
    · intro record hrecord
      exact contains_stored (hrotated.contains_iff.mp hrecord)
  | rotated hne => exact Or.inl ⟨if_pos rfl, rfl, fun _ hrecord => contains_rotate.mp hrecord⟩
  | discarded hcall =>
    refine Or.inl ⟨if_pos rfl, rfl, ?_⟩
    rintro record ⟨table, ht, hrecord⟩
    rcases List.mem_cons.mp ht with rfl | ht
    · exact contains_of_active hrecord
    · exact contains_of_immutable (List.mem_of_mem_eraseP ht) hrecord

/-- The entries of a run, in the order in which they were stored. -/
structure Logged (set : MemTableSet) (log : List (Bytes × Entry)) : Prop where
  increasing : log.Pairwise fun earlier later =>
    earlier.2.sequenceNumber < later.2.sequenceNumber
  bound : ∀ record ∈ log, record.2.sequenceNumber ≤ set.lastSequenceNumber
  logged : ∀ record, set.Contains record → record ∈ log

theorem Logged.after (h : Logged set log) (call : Call) :
    Logged (call.after set) (log ++ (call.written set).toList) := by
  rcases (call.after_moves set).written with
    ⟨hnone, hlast, hcontains⟩ | ⟨record, hsome, hseq, hlast, hcontains⟩
  · rw [hnone, Option.toList_none, List.append_nil]
    exact ⟨h.increasing, hlast ▸ h.bound, fun record hrecord =>
      h.logged record (hcontains record hrecord)⟩
  · rw [hsome, Option.toList_some]
    refine ⟨List.pairwise_append.mpr ⟨h.increasing, List.pairwise_singleton _ _, ?_⟩, ?_, ?_⟩
    · intro earlier hearlier later hlater
      obtain rfl := List.mem_singleton.mp hlater
      have := h.bound earlier hearlier
      omega
    · intro record' hrecord
      rw [hlast]
      rcases List.mem_append.mp hrecord with hold | hnew
      · exact (h.bound record' hold).trans (Nat.le_succ _)
      · obtain rfl := List.mem_singleton.mp hnew
        exact hseq.le
    · intro record' hrecord
      rcases hcontains record' hrecord with rfl | hold
      · exact List.mem_append_right _ (List.mem_singleton_self _)
      · exact List.mem_append_left _ (h.logged record' hold)

theorem create_logged (h : create options = .ok start) : Logged start [] :=
  ⟨List.Pairwise.nil, fun _ hrecord => (by cases hrecord), fun _ hrecord =>
    absurd hrecord (create_contains h)⟩

theorem Logged.run (h : Logged start []) (calls : List Call) :
    Logged (start.run calls) (start.history calls) := by
  induction calls using List.reverseRecOn with
  | nil => exact h
  | append_singleton calls call ih =>
    rw [run_append, history_append]
    have hafter := ih.after call
    rwa [← List.append_nil (call.written _).toList] at hafter

/-- Two records of one table have different keys. -/
theorem snapshot_pairwise (table : MemTable) :
    table.snapshot.Pairwise fun record record' => record ≠ record' :=
  table.entries.sorted.imp fun hlt heq => absurd (heq ▸ hlt) (lt_irrefl _)

/-- No two stored entries share a sequence number. -/
theorem Logged.unique (h : Logged set log) (hrecency : set.tables.Pairwise MemTable.Above) :
    (set.tables.flatMap MemTable.snapshot).Pairwise fun record record' =>
      record.2.sequenceNumber ≠ record'.2.sequenceNumber := by
  refine List.pairwise_flatMap.mpr ⟨fun table ht => ?_, ?_⟩
  · -- in the log, a number has one record
    refine (snapshot_pairwise table).imp_of_mem fun hrecord hrecord' hne hsame => hne ?_
    have hnodup : (log.map fun record => record.2.sequenceNumber).Nodup :=
      List.pairwise_map.mpr (h.increasing.imp Nat.ne_of_lt)
    exact List.inj_on_of_nodup_map hnodup (h.logged _ ⟨table, ht, hrecord⟩)
      (h.logged _ ⟨table, ht, hrecord'⟩) hsame
  · exact hrecency.imp fun habove record hrecord record' hrecord' =>
      (habove record hrecord record' hrecord').ne'

/-! ## Lookups -/

/-- What a lookup should find: the entry of the key with the greatest sequence number. -/
def Newest (set : MemTableSet) (key : Bytes) : Option Entry → Prop
  | none => ∀ entry, ¬ set.Contains (key, entry)
  | some entry => set.Contains (key, entry) ∧
      ∀ entry', set.Contains (key, entry') → entry'.sequenceNumber ≤ entry.sequenceNumber

/-- The first hit is the newest one. -/
theorem Ordered.entryFor_newest (h : set.Ordered) (key : Bytes) :
    set.Newest key (set.entryFor key) := by
  cases hfound : set.entryFor key with
  | none =>
    rintro entry ⟨table, ht, hentry⟩
    have hnone := List.findSome?_eq_none_iff.mp hfound table ht
    rw [OrderedMap.find?_eq_some_iff.mpr hentry] at hnone
    cases hnone
  | some entry =>
    refine ⟨contains_of_entryFor hfound, ?_⟩
    rintro entry' ⟨table', ht', hentry'⟩
    have hfind' := OrderedMap.find?_eq_some_iff.mpr hentry'
    obtain ⟨newer, table, older, hsplit, hfind, hnone⟩ := List.findSome?_eq_some_iff.mp hfound
    have habove := (List.pairwise_append.mp (hsplit ▸ h.recency)).2.1
    rw [hsplit] at ht'
    -- the tables before the hit do not have the key, those after it are older
    rcases List.mem_append.mp ht' with hnewer | hrest
    · rw [hnone table' hnewer] at hfind'
      cases hfind'
    rcases List.mem_cons.mp hrest with rfl | holder
    · rw [hfind] at hfind'
      exact (congrArg Entry.sequenceNumber (Option.some.inj hfind')).ge
    · exact ((List.pairwise_cons.mp habove).1 table' holder _
        (OrderedMap.find?_eq_some_iff.mp hfind) _ hentry').le

/-! ## Nothing is refused -/

theorem Ordered.remove_ok (h : set.Ordered) {key : Bytes} (hkey : ValidKey key)
    (hroom : set.lastSequenceNumber ≠ u64 - 1) : ∃ result, set.remove key = .ok result := by
  obtain ⟨usage, htable⟩ := h.tombstone_ok hkey
  unfold remove
  rw [validateKey_eq_ok.mpr hkey, ok_bind, set.latestState_eq hkey, ok_bind]
  split_ifs
  · exact ⟨_, rfl⟩
  · rw [nextSequenceNumber_ok hroom, ok_bind, htable]
    exact ⟨_, rfl⟩

/-- The check comes first. -/
theorem Call.perform_eq (set : MemTableSet) (call : Call) :
    call.perform set = call.validate >>= fun _ => call.perform set := by
  cases call with
  | put key value =>
    simp only [perform, validate, MemTableSet.put]
    cases validateKey key with
    | error e => rfl
    | ok _ => cases validateValue value <;> rfl
  | remove key =>
    simp only [perform, validate, MemTableSet.remove]
    cases validateKey key <;> rfl
  | addTombstone key =>
    simp only [perform, validate, MemTableSet.addTombstone]
    cases validateKey key <;> rfl
  | rotateActive => rfl
  | discardImmutable generation => rfl

theorem Ordered.perform_ok (h : set.Ordered) (hroom : set.lastSequenceNumber ≠ u64 - 1)
    (hvalid : call.validate = .ok ()) : ∃ set', call.perform set = .ok set' := by
  cases call with
  | put key value =>
    obtain ⟨_, hkey, hvalue⟩ := bind_eq_ok.mp hvalid
    obtain ⟨_, _, hok⟩ := h.put_eq (validateKey_eq_ok.mp hkey) (validateValue_eq_ok.mp hvalue) hroom
    exact ⟨_, hok⟩
  | remove key =>
    obtain ⟨_, hok⟩ := h.remove_ok (validateKey_eq_ok.mp hvalid) hroom
    exact ⟨_, congrArg (Except.map Prod.snd) hok⟩
  | addTombstone key =>
    obtain ⟨_, _, hok⟩ := h.addTombstone_eq (validateKey_eq_ok.mp hvalid) hroom
    exact ⟨_, hok⟩
  | rotateActive => exact ⟨_, rfl⟩
  | discardImmutable generation => exact ⟨_, rfl⟩

/-- A call throws only what its arguments are refused for. -/
theorem Ordered.perform_error (h : set.Ordered) (hroom : set.lastSequenceNumber ≠ u64 - 1)
    {error : Error} (hthrows : call.perform set = .error error) : call.validate = .error error := by
  rw [call.perform_eq] at hthrows
  cases hvalid : call.validate with
  | error e =>
    rw [hvalid] at hthrows
    exact congrArg Except.error (Except.error.inj hthrows)
  | ok _ =>
    obtain ⟨set', hok⟩ := h.perform_ok hroom hvalid
    rw [hvalid, ok_bind, hok] at hthrows
    cases hthrows

/-! ## The order of the memtables, over a run -/

/-- What holds of the tables after any calls, with the entries that the calls have stored. -/
structure InOrder (set : MemTableSet) (log : List (Bytes × Entry)) : Prop where
  increasing : log.Pairwise fun earlier later =>
    earlier.2.sequenceNumber < later.2.sequenceNumber
  logged : ∀ record, set.Contains record → record ∈ log
  unique : (set.tables.flatMap MemTable.snapshot).Pairwise fun record record' =>
    record.2.sequenceNumber ≠ record'.2.sequenceNumber
  recency : set.tables.Pairwise MemTable.Above
  frozen : ∀ table ∈ set.immutableTables, table.immutable = true
  nonempty : ∀ table ∈ set.immutableTables, table.empty = false
  generations : set.immutableTables.Pairwise fun newer older =>
    older.generation < newer.generation
  accepts : ∀ key entry, entry.sequenceNumber = set.lastSequenceNumber + 1 →
    ∃ table, set.active.insertOrAssign key entry = .ok table
  throws : ∀ (call : Call) (error : Error), call.perform set = .error error →
    call.validate = .error error
  latest : ∀ key, ValidKey key → ∃ found, set.latestEntry key = .ok found ∧ set.Newest key found

/-- **Memtable recency order.** -/
theorem memtables_in_order {options : MemTableOptions} (hcreate : create options = .ok start)
    (hroom : ∀ done, done <+: calls → (start.run done).HasRoom) :
    InOrder (start.run calls) (start.history calls) := by
  have hordered := (create_ordered hcreate).run hroom
  have hlogged := (create_logged hcreate).run calls
  have hlast : (start.run calls).lastSequenceNumber ≠ u64 - 1 :=
    (hroom calls (List.prefix_refl _)).2.ne
  refine ⟨hlogged.increasing, hlogged.logged, hlogged.unique hordered.recency, hordered.recency,
    hordered.frozen, ?_, (List.pairwise_cons.mp hordered.generations).2, ?_, ?_, ?_⟩
  · intro table ht
    have hne := hordered.nonempty table ht
    cases hempty : table.empty with
    | false => rfl
    | true => exact absurd (MemTable.empty_iff.mp hempty) hne
  · intro key entry hseq
    obtain ⟨usage, hok⟩ := hordered.insertOrAssign_ok key entry hseq
    exact ⟨_, hok⟩
  · intro call error hthrows
    exact hordered.perform_error hlast hthrows
  · intro key hkey
    exact ⟨_, (start.run calls).latestEntry_eq hkey, hordered.entryFor_newest key⟩

/-- An empty set with its first table. -/
def emptySet : MemTableSet := ⟨1024, ⟨0, OrderedMap.empty, 0, false⟩, [], 1, 0, 0⟩

/-- Two versions of a key, the older one frozen. -/
def twoVersions : List Call := [.put [1] [7], .rotateActive, .put [1] [8]]

theorem memtables_in_order_two : create ⟨1024, 0, 0⟩ = .ok emptySet ∧
    (∀ done, done <+: twoVersions → (emptySet.run done).HasRoom) ∧
    InOrder (emptySet.run twoVersions) [([1], ⟨[7], 1, false⟩), ([1], ⟨[8], 2, false⟩)] := by
  have hcreate : create ⟨1024, 0, 0⟩ = .ok emptySet := rfl
  have hroom : ∀ done, done <+: twoVersions → (emptySet.run done).HasRoom := by
    intro done hdone
    obtain ⟨n, hn, rfl⟩ : ∃ n, n ≤ 3 ∧ done = twoVersions.take n :=
      ⟨done.length, hdone.length_le, (List.prefix_iff_eq_take.mp hdone)⟩
    unfold HasRoom
    match n, hn with
    | 0, _ => decide
    | 1, _ => decide
    | 2, _ => decide
    | 3, _ => decide
  exact ⟨hcreate, hroom, memtables_in_order hcreate hroom⟩

/-! ## The counter -/

/-- The keys that exist in the set. -/
def liveKeys (set : MemTableSet) : Set Bytes := {key | set.existsKey key = .ok true}

/-- `size()` is the number of these keys. -/
def Accurate (set : MemTableSet) : Prop := set.size = set.liveKeys.ncard

/-- What bounds the number of keys: no entry without a sequence number of its own. -/
structure Counted (set : MemTableSet) : Prop where
  valid : ∀ record, set.Contains record → ValidKey record.1
  few : set.entryTotal ≤ set.lastSequenceNumber
  last_lt : set.lastSequenceNumber < u64

theorem holds_iff {key : Bytes} :
    set.holds key = true ↔ ∃ entry, set.entryFor key = some entry ∧ entry.deleted = false := by
  unfold holds
  rw [Option.any_eq_true]
  simp

theorem Counted.liveKeys_eq (h : set.Counted) : set.liveKeys = {key | set.holds key = true} := by
  ext key
  constructor
  · intro hexists
    have hkey : ValidKey key := by
      obtain ⟨_, hkey, -⟩ := bind_eq_ok.mp hexists
      exact validateKey_eq_ok.mp hkey
    have hsame := set.existsKey_eq hkey
    rw [show set.existsKey key = .ok true from hexists] at hsame
    exact (Except.ok.inj hsame).symm
  · intro hholds
    obtain ⟨entry, hentry, -⟩ := holds_iff.mp hholds
    show set.existsKey key = .ok true
    rw [set.existsKey_eq (h.valid _ (contains_of_entryFor hentry))]
    exact congrArg Except.ok hholds

/-- The keys of all tables. -/
theorem liveKeys_subset (set : MemTableSet) :
    {key | set.holds key = true} ⊆ ↑((set.tables.flatMap MemTable.snapshot).map Prod.fst).toFinset := by
  intro key hholds
  obtain ⟨entry, hentry, -⟩ := holds_iff.mp hholds
  obtain ⟨table, ht, hrecord⟩ := contains_of_entryFor hentry
  simp only [List.coe_toFinset, Set.mem_ofPred_eq, List.mem_map, List.mem_flatMap]
  exact ⟨(key, entry), ⟨table, ht, hrecord⟩, rfl⟩

theorem Counted.finite (h : set.Counted) : set.liveKeys.Finite := by
  rw [h.liveKeys_eq]
  exact (Finset.finite_toSet _).subset set.liveKeys_subset

theorem Counted.ncard_le (h : set.Counted) : set.liveKeys.ncard ≤ set.entryTotal := by
  rw [h.liveKeys_eq]
  calc _ ≤ (((set.tables.flatMap MemTable.snapshot).map Prod.fst).toFinset : Set Bytes).ncard :=
        Set.ncard_le_ncard set.liveKeys_subset (Finset.finite_toSet _)
    _ ≤ ((set.tables.flatMap MemTable.snapshot).map Prod.fst).length := by
        rw [Set.ncard_coe_finset]
        exact List.toFinset_card_le _
    _ = set.entryTotal := by
        rw [List.length_map, List.length_flatMap]
        rfl

/-- A write stores one entry and counts it. -/
theorem Counted.wrote (h : set.Counted) {key : Bytes} (hkey : ValidKey key)
    (hroom : set.lastSequenceNumber ≠ u64 - 1) :
    (set.stored key entry usage count).rotateIfRequired.Counted := by
  have hrotated := rotateIfRequired_rotated (set.stored key entry usage count)
  have htotal : (set.stored key entry usage count).entryTotal ≤ set.entryTotal + 1 :=
    entryTotal_stored_le
  have hlast : (set.stored key entry usage count).lastSequenceNumber =
      set.lastSequenceNumber + 1 := rfl
  have hfew := h.few
  have hlt := h.last_lt
  refine ⟨?_, ?_, ?_⟩
  · intro record hrecord
    rcases contains_stored (hrotated.contains_iff.mp hrecord) with rfl | hold
    · exact hkey
    · exact h.valid record hold
  · rw [hrotated.entryTotal_eq, hrotated.last_eq]
    omega
  · rw [hrotated.last_eq]
    omega

theorem entryTotal_discard (set : MemTableSet) (generation : Nat) :
    entryTotal { set with
      immutableTables := set.immutableTables.eraseP (·.generation = generation) } ≤
        set.entryTotal := by
  unfold entryTotal tables
  rw [List.map_cons, List.map_cons, List.sum_cons, List.sum_cons]
  exact Nat.add_le_add_left (List.Sublist.sum_le_sum (List.eraseP_sublist.map _) (by simp)) _

theorem Moves.counted (hmoves : Moves set call set') (h : set.Counted) : set'.Counted := by
  cases hmoves with
  | stays => exact h
  | wrote hcall hvalid hroom hseq => exact h.wrote hvalid.key hroom
  | rotated hne =>
    refine ⟨fun record hrecord => h.valid record (contains_rotate.mp hrecord), ?_, h.last_lt⟩
    rw [entryTotal_rotate]
    exact h.few
  | discarded hcall =>
    refine ⟨?_, (set.entryTotal_discard _).trans h.few, h.last_lt⟩
    rintro record ⟨table, ht, hrecord⟩
    rcases List.mem_cons.mp ht with rfl | ht
    · exact h.valid record (contains_of_active hrecord)
    · exact h.valid record (contains_of_immutable (List.mem_of_mem_eraseP ht) hrecord)

theorem create_counted (h : create options = .ok start)
    (hinitial : options.initialSequenceNumber < u64) : start.Counted ∧ start.Accurate := by
  have hnone : ∀ record, ¬ start.Contains record := fun _ => create_contains h
  unfold create at h
  split_ifs at h
  obtain rfl := Except.ok.inj h
  have hcounted : Counted _ :=
    ⟨fun record hrecord => absurd hrecord (hnone record), Nat.zero_le _, hinitial⟩
  exact ⟨hcounted, (Nat.le_zero.mp hcounted.ncard_le).symm⟩

theorem holds_rotated (hrotated : Rotated set set') (key : Bytes) :
    set'.holds key = set.holds key := by
  unfold holds
  rw [hrotated.entryFor_eq]

theorem holds_stored {key : Bytes} (k : Bytes) :
    (set.stored key entry usage count).holds k =
      if k = key then !entry.deleted else set.holds k := by
  unfold holds
  rw [entryFor_stored]
  split_ifs <;> rfl

/-- The keys that exist after a write. -/
theorem Counted.liveKeys_wrote (h : set.Counted) {key : Bytes} (hkey : ValidKey key)
    (hroom : set.lastSequenceNumber ≠ u64 - 1) :
    (set.stored key entry usage count).rotateIfRequired.liveKeys =
      if entry.deleted then set.liveKeys \ {key} else insert key set.liveKeys := by
  have hrotated := rotateIfRequired_rotated (set.stored key entry usage count)
  rw [(h.wrote hkey hroom).liveKeys_eq, h.liveKeys_eq]
  ext k
  have hholds := (holds_rotated hrotated k).trans (holds_stored k)
  rcases eq_or_ne k key with rfl | hk
  · rw [if_pos rfl] at hholds
    cases hdeleted : entry.deleted <;> simp [hholds, hdeleted]
  · rw [if_neg hk] at hholds
    cases hdeleted : entry.deleted <;> simp [hholds, hk]

/-- **A write keeps the counter right.** -/
theorem Counted.accurate_wrote (h : set.Counted) (haccurate : set.Accurate) {key : Bytes}
    (hkey : ValidKey key) (hroom : set.lastSequenceNumber ≠ u64 - 1) :
    (set.stored key entry usage (set.recount key entry)).rotateIfRequired.Accurate := by
  have hcount : set.liveKeyCount = set.liveKeys.ncard := haccurate
  have hsize : (set.stored key entry usage (set.recount key entry)).rotateIfRequired.size =
      set.recount key entry := by
    rcases rotateIfRequired_rotated (set.stored key entry usage (set.recount key entry)) with
      hsame | ⟨-, hrotate⟩
    · rw [hsame]
      rfl
    · rw [hrotate]
      rfl
  have hmem : key ∈ set.liveKeys ↔ set.holds key = true := by
    rw [h.liveKeys_eq]
    exact Iff.rfl
  have hbound := h.ncard_le.trans h.few
  have hlt := h.last_lt
  unfold Accurate
  rw [hsize, h.liveKeys_wrote hkey hroom]
  unfold recount
  rw [hcount]
  by_cases hholds : set.holds key = true
  · rw [if_pos hholds]
    have hlive := hmem.mpr hholds
    split_ifs
    · have hpos : 0 < set.liveKeys.ncard := (Set.ncard_pos h.finite).mpr ⟨key, hlive⟩
      rw [u64Sub_of_le hpos (by omega), Set.ncard_sdiff_singleton_of_mem hlive]
    · rw [Set.insert_eq_of_mem hlive]
  · rw [if_neg hholds]
    have hdead := mt hmem.mp hholds
    split_ifs
    · rw [Set.sdiff_singleton_eq_self hdead]
    · rw [Set.ncard_insert_of_notMem hdead h.finite, Nat.mod_eq_of_lt (by omega)]

/-! ### A table less -/

/-- The latest entry of the key in these tables is a value. -/
def liveIn (tables : List MemTable) (key : Bytes) : Bool :=
  (tables.findSome? fun table => table.entries.find? key).any fun entry => !entry.deleted

/-- The entries of a table that no newer table hides. -/
def exposed (newer : List MemTable) (table : MemTable) : List (Bytes × Entry) :=
  table.snapshot.filter fun record => newer.all fun other => (other.entries.find? record.1).isNone

/-- The exposed tombstones over a value, or the exposed values with no value under them. -/
def turning (deleted : Bool) (newer : List MemTable) (table : MemTable) (older : List MemTable) :
    List (Bytes × Entry) :=
  (exposed newer table).filter fun record =>
    record.2.deleted == deleted && liveIn older record.1 == deleted

/-- Keys that go with the table. -/
abbrev vanishing := turning false

/-- Keys that come back without it. -/
abbrev reviving := turning true

/-- As many keys vanish with the table of this generation as come back. -/
def DiscardKeeps (set : MemTableSet) (generation : Nat) : Prop :=
  ∀ newer table older, set.immutableTables = newer ++ table :: older →
    (∀ other ∈ newer, other.generation ≠ generation) → table.generation = generation →
      (vanishing (set.active :: newer) table older).length =
        (reviving (set.active :: newer) table older).length

/-- In particular where newer tables have all its keys. -/
theorem discardKeeps_of_hidden {generation : Nat}
    (h : ∀ newer table older, set.immutableTables = newer ++ table :: older →
      table.generation = generation → ∀ record ∈ table.snapshot,
        ∃ other ∈ set.active :: newer, (other.entries.find? record.1).isSome) :
    set.DiscardKeeps generation := by
  intro newer table older hsplit _ hgeneration
  have hnone : exposed (set.active :: newer) table = [] := by
    refine List.filter_eq_nil_iff.mpr fun record hrecord hall => ?_
    obtain ⟨other, hother, hsome⟩ := h newer table older hsplit hgeneration record hrecord
    have := List.all_eq_true.mp hall other hother
    rw [Option.isNone_iff_eq_none.mp this] at hsome
    cases hsome
  unfold vanishing reviving turning
  rw [hnone]
  rfl

theorem mem_exposed {record : Bytes × Entry} :
    record ∈ exposed newer table ↔ table.entries.find? record.1 = some record.2 ∧
      (newer.findSome? fun other => other.entries.find? record.1) = none := by
  unfold exposed
  rw [List.mem_filter, List.findSome?_eq_none_iff]
  refine and_congr OrderedMap.find?_eq_some_iff.symm ?_
  simp [List.all_eq_true]

/-- Only an exposed entry makes a difference. -/
theorem liveIn_erase (newer : List MemTable) (table : MemTable) (older : List MemTable) (key : Bytes) :
    liveIn (newer ++ table :: older) key = liveIn (newer ++ older) key ∨
      ∃ entry, (key, entry) ∈ exposed newer table := by
  unfold liveIn
  rw [List.findSome?_append, List.findSome?_append, List.findSome?_cons]
  cases hnewer : newer.findSome? fun other => other.entries.find? key with
  | some entry => exact Or.inl rfl
  | none =>
    cases hfind : table.entries.find? key with
    | none => exact Or.inl rfl
    | some entry => exact Or.inr ⟨entry, mem_exposed.mpr ⟨hfind, hnewer⟩⟩

theorem liveIn_exposed {key : Bytes} (h : (key, entry) ∈ exposed newer table)
    (older : List MemTable) :
    liveIn (newer ++ table :: older) key = !entry.deleted ∧
      liveIn (newer ++ older) key = liveIn older key := by
  obtain ⟨hfind, hnewer⟩ := mem_exposed.mp h
  unfold liveIn
  rw [List.findSome?_append, List.findSome?_append, List.findSome?_cons, hnewer, hfind]
  exact ⟨rfl, rfl⟩

theorem mem_turning {key : Bytes} {deleted : Bool} :
    key ∈ (turning deleted newer table older).map Prod.fst ↔
      liveIn (newer ++ table :: older) key = !deleted ∧ liveIn (newer ++ older) key = deleted := by
  unfold turning
  constructor
  · intro hkey
    obtain ⟨⟨_, entry⟩, hentry, rfl⟩ := List.mem_map.mp hkey
    obtain ⟨hexposed, hboth⟩ := List.mem_filter.mp hentry
    obtain ⟨hwith, hwithout⟩ := liveIn_exposed hexposed older
    rw [Bool.and_eq_true, beq_iff_eq, beq_iff_eq] at hboth
    exact ⟨by rw [hwith, hboth.1], by rw [hwithout, hboth.2]⟩
  · rintro ⟨hwith, hwithout⟩
    rcases liveIn_erase newer table older key with hsame | ⟨entry, hexposed⟩
    · rw [hwith, hwithout] at hsame
      exact absurd hsame (Bool.not_ne_self deleted)
    · obtain ⟨hwith', hwithout'⟩ := liveIn_exposed hexposed older
      refine List.mem_map.mpr ⟨(key, entry), List.mem_filter.mpr ⟨hexposed, ?_⟩, rfl⟩
      rw [hwith, Bool.not_inj_iff] at hwith'
      rw [hwithout] at hwithout'
      simp [← hwith', ← hwithout']

theorem ncard_turning (deleted : Bool) (newer : List MemTable) (table : MemTable)
    (older : List MemTable) :
    {key | liveIn (newer ++ table :: older) key = !deleted ∧
      liveIn (newer ++ older) key = deleted}.ncard = (turning deleted newer table older).length := by
  have hsub : (turning deleted newer table older).Sublist table.snapshot :=
    List.filter_sublist.trans List.filter_sublist
  have hnodup : ((turning deleted newer table older).map Prod.fst).Nodup :=
    (List.pairwise_map.mpr (table.entries.sorted.imp ne_of_lt)).sublist (hsub.map Prod.fst)
  have hset : {key | liveIn (newer ++ table :: older) key = !deleted ∧
      liveIn (newer ++ older) key = deleted} =
        ↑((turning deleted newer table older).map Prod.fst).toFinset := by
    ext key
    rw [List.coe_toFinset]
    exact mem_turning.symm
  rw [hset, Set.ncard_coe_finset, List.toFinset_card_of_nodup hnodup, List.length_map]

/-- **A table less**: the number of live keys stays as it was exactly when as many vanish as come back. -/
theorem ncard_liveIn_eq_iff (hfinite : {key | liveIn (newer ++ table :: older) key = true}.Finite)
    (hfinite' : {key | liveIn (newer ++ older) key = true}.Finite) :
    {key | liveIn (newer ++ older) key = true}.ncard =
        {key | liveIn (newer ++ table :: older) key = true}.ncard ↔
      (vanishing newer table older).length = (reviving newer table older).length := by
  have hvanish : {key | liveIn (newer ++ table :: older) key = true} \
      {key | liveIn (newer ++ older) key = true} =
        {key | liveIn (newer ++ table :: older) key = !false ∧ liveIn (newer ++ older) key = false} := by
    ext key
    simp
  have hrevive : {key | liveIn (newer ++ older) key = true} \
      {key | liveIn (newer ++ table :: older) key = true} =
        {key | liveIn (newer ++ table :: older) key = !true ∧ liveIn (newer ++ older) key = true} := by
    ext key
    simp [and_comm]
  rw [← ncard_turning, ← ncard_turning, ← hvanish, ← hrevive, eq_comm,
    Set.ncard_eq_ncard_iff_ncard_sdiff_eq_ncard_sdiff hfinite hfinite']

/-- The first table of the generation goes. -/
theorem discardImmutable_eq {generation : Nat}
    (hsplit : set.immutableTables = newer ++ table :: older)
    (hnewer : ∀ other ∈ newer, other.generation ≠ generation)
    (htable : table.generation = generation) :
    (set.discardImmutable generation).2 = { set with immutableTables := newer ++ older } := by
  have hany : set.immutableTables.any (·.generation = generation) = true :=
    List.any_eq_true.mpr ⟨table, by simp [hsplit], by simpa using htable⟩
  unfold discardImmutable
  rw [if_pos hany, hsplit, List.eraseP_append_right _ (by simpa using hnewer),
    List.eraseP_cons_of_pos (by simpa using htable)]

theorem Counted.discardImmutable (h : set.Counted) (generation : Nat) :
    (set.discardImmutable generation).2.Counted := by
  have hmoves : Moves set (.discardImmutable generation) (set.discardImmutable generation).2 :=
    Call.perform_moves rfl
  exact hmoves.counted h

/-- What `discard_immutable` does to the number of live keys, by the tables before it. -/
theorem Counted.ncard_discardImmutable (h : set.Counted) (generation : Nat) :
    (set.discardImmutable generation).2.liveKeys.ncard = set.liveKeys.ncard ↔
      set.DiscardKeeps generation := by
  have hafter := h.discardImmutable generation
  have hcount : ∀ newer table older, set.immutableTables = newer ++ table :: older →
      (∀ other ∈ newer, other.generation ≠ generation) → table.generation = generation →
      ((set.discardImmutable generation).2.liveKeys.ncard = set.liveKeys.ncard ↔
        (vanishing (set.active :: newer) table older).length =
          (reviving (set.active :: newer) table older).length) := by
    intro newer table older hsplit hnewer htable
    have hbefore : set.liveKeys = {key | liveIn (set.active :: newer ++ table :: older) key = true} := by
      rw [h.liveKeys_eq, List.cons_append, ← hsplit]
      rfl
    have hthen : (set.discardImmutable generation).2.liveKeys =
        {key | liveIn (set.active :: newer ++ older) key = true} := by
      rw [hafter.liveKeys_eq, discardImmutable_eq hsplit hnewer htable]
      rfl
    rw [hbefore, hthen]
    exact ncard_liveIn_eq_iff (hbefore ▸ h.finite) (hthen ▸ hafter.finite)
  by_cases hany : ∃ table ∈ set.immutableTables, table.generation = generation
  · obtain ⟨found, hfound, hgeneration⟩ := hany
    obtain ⟨table, newer, older, hnewer, htable, hsplit, -⟩ :=
      List.exists_of_eraseP (p := fun table => decide (table.generation = generation)) hfound
        (decide_eq_true hgeneration)
    have hnewer : ∀ other ∈ newer, other.generation ≠ generation := fun other hother =>
      of_decide_eq_false (Bool.eq_false_iff.mpr (hnewer other hother))
    constructor
    · intro hsame newer table older hsplit hnewer htable
      exact (hcount newer table older hsplit hnewer htable).mp hsame
    · intro hkeeps
      have htable := of_decide_eq_true htable
      exact (hcount newer table older hsplit hnewer htable).mpr
        (hkeeps newer table older hsplit hnewer htable)
  · have hnone : ¬ set.immutableTables.any (·.generation = generation) = true := fun hsome => by
      obtain ⟨table, ht, hgeneration⟩ := List.any_eq_true.mp hsome
      exact hany ⟨table, ht, of_decide_eq_true hgeneration⟩
    refine iff_of_true ?_ fun newer table older hsplit _ htable => ?_
    · rw [MemTableSet.discardImmutable, if_neg hnone]
    · exact absurd ⟨table, by simp [hsplit], htable⟩ hany

/-- The counter stays where it was. -/
theorem size_discardImmutable (set : MemTableSet) (generation : Nat) :
    (set.discardImmutable generation).2.size = set.size := by
  unfold discardImmutable
  split_ifs <;> rfl

theorem Counted.accurate_after (h : set.Counted) (haccurate : set.Accurate) (call : Call)
    (hkeeps : ∀ generation, call = .discardImmutable generation → set.DiscardKeeps generation) :
    (call.after set).Accurate := by
  by_cases hdiscard : ∃ generation, call = .discardImmutable generation
  · obtain ⟨generation, rfl⟩ := hdiscard
    exact (set.size_discardImmutable generation).trans
      (haccurate.trans ((h.ncard_discardImmutable generation).mpr (hkeeps generation rfl)).symm)
  · have hmoves := call.after_moves set
    generalize call.after set = after at hmoves ⊢
    cases hmoves with
    | stays => exact haccurate
    | wrote hcall hvalid hroom hseq => exact h.accurate_wrote haccurate hvalid.key hroom
    | rotated hne =>
      have hrotates : Moves set call set.rotate := .rotated hne
      have hcounted := hrotates.counted h
      have hsame : set.rotate.liveKeys = set.liveKeys := by
        rw [hcounted.liveKeys_eq, h.liveKeys_eq]
        ext key
        simp only [Set.mem_ofPred_eq, holds_rotated (Or.inr ⟨hne, rfl⟩)]
      show set.size = set.rotate.liveKeys.ncard
      rw [hsame]
      exact haccurate
    | discarded hcall => exact absurd ⟨_, hcall⟩ hdiscard

theorem Counted.run (h : start.Counted) (calls : List Call) : (start.run calls).Counted := by
  induction calls generalizing start with
  | nil => exact h
  | cons call rest ih => exact ih ((call.after_moves start).counted h)

/-- **`size()` is right exactly as long as `discard_immutable` loses nothing.** -/
theorem size_accurate_iff {options : MemTableOptions} (hcreate : create options = .ok start)
    (hinitial : options.initialSequenceNumber < u64) :
    (∀ done, done <+: calls → (start.run done).Accurate) ↔
      ∀ done generation, done ++ [.discardImmutable generation] <+: calls →
        (start.run done).DiscardKeeps generation := by
  obtain ⟨hcounted, haccurate⟩ := create_counted hcreate hinitial
  constructor
  · intro hall done generation hdone
    have hbefore := hall done ((List.prefix_append _ _).trans hdone)
    have hafter := hall _ hdone
    rw [run_append] at hafter
    exact ((hcounted.run done).ncard_discardImmutable generation).mp
      (hafter.symm.trans ((size_discardImmutable _ generation).trans hbefore))
  · intro hkeeps done hdone
    -- induction on the calls that were made so far
    induction done using List.reverseRecOn with
    | nil => exact haccurate
    | append_singleton done call ih =>
      rw [run_append]
      refine (hcounted.run done).accurate_after
        (ih ((List.prefix_append _ _).trans hdone)) call ?_
      rintro generation rfl
      exact hkeeps done generation hdone

/-- The first table is discarded when a newer one has its key. -/
def overwritten : List Call :=
  [.put [1] [7], .rotateActive, .put [1] [8], .put [2] [8], .remove [2], .discardImmutable 0]

theorem size_accurate_iff_overwritten : create ⟨1024, 0, 0⟩ = .ok emptySet ∧
    (emptySet.run overwritten).Accurate ∧ (emptySet.run overwritten).size = 1 := by
  have hcreate : create ⟨1024, 0, 0⟩ = .ok emptySet := rfl
  refine ⟨hcreate, (size_accurate_iff hcreate (by decide)).mpr ?_ _ (List.prefix_refl _), by decide⟩
  intro done generation hdone
  -- only the last call is a `discard_immutable`
  obtain ⟨rfl, rfl⟩ : done = overwritten.take 5 ∧ generation = 0 := by
    have htake : done ++ [.discardImmutable generation] = overwritten.take (done.length + 1) := by
      simpa using List.prefix_iff_eq_take.mp hdone
    have hlast := congrArg List.getLast? htake
    rw [List.getLast?_concat] at hlast
    have hlen : done.length < 6 := by simpa [overwritten] using hdone.length_le
    have hfive : done.length = 5 := by
      interval_cases done.length <;> simp [overwritten] at hlast ⊢
    rw [hfive] at htake
    have hsplit : overwritten.take 6 = overwritten.take 5 ++ [.discardImmutable 0] := rfl
    obtain ⟨hcalls, hdiscard⟩ := List.append_inj (htake.trans hsplit) hfive
    exact ⟨hcalls, Call.discardImmutable.inj (List.head_eq_of_cons_eq hdiscard)⟩
  refine discardKeeps_of_hidden fun newer table older hsplit _ record hrecord => ?_
  have hfrozen : ∀ table ∈ (emptySet.run (overwritten.take 5)).immutableTables,
      ∀ record ∈ table.snapshot,
        ((emptySet.run (overwritten.take 5)).active.entries.find? record.1).isSome := by
    decide
  exact ⟨_, List.mem_cons_self, hfrozen table (by simp [hsplit]) record hrecord⟩

/-- A live key is discarded, and `size()` still counts it; a tombstone is discarded, the key under it is
back, and removing it once more takes the counter below zero. -/
theorem discard_spoils_size :
    (emptySet.run [.put [1] [7], .rotateActive, .discardImmutable 0]).size = 1 ∧
      (emptySet.run [.put [1] [7], .rotateActive, .discardImmutable 0]).liveKeys = ∅ ∧
      (emptySet.run [.put [1] [7], .rotateActive, .remove [1], .rotateActive, .discardImmutable 1,
        .remove [1]]).size = 18446744073709551615 ∧
      (emptySet.run [.put [1] [7], .rotateActive, .remove [1], .rotateActive, .discardImmutable 1,
        .remove [1]]).liveKeys.ncard ≤ 2 := by
  have hcreate : create ⟨1024, 0, 0⟩ = .ok emptySet := rfl
  obtain ⟨hcounted, -⟩ := create_counted hcreate (by decide)
  have hfirst := hcounted.run [.put [1] [7], .rotateActive, .discardImmutable 0]
  have hsecond := hcounted.run [.put [1] [7], .rotateActive, .remove [1], .rotateActive,
    .discardImmutable 1, .remove [1]]
  have hnone : (emptySet.run [.put [1] [7], .rotateActive, .discardImmutable 0]).entryTotal = 0 := by
    decide
  have htwo : (emptySet.run [.put [1] [7], .rotateActive, .remove [1], .rotateActive,
      .discardImmutable 1, .remove [1]]).entryTotal = 2 := by
    decide
  refine ⟨by decide, ?_, by decide, htwo ▸ hsecond.ncard_le⟩
  rw [← Set.ncard_eq_zero hfirst.finite]
  exact Nat.le_zero.mp (hnone ▸ hfirst.ncard_le)

end MemTableSet

end NebulaKV.Lsm
