/-
# Appending to the write-ahead log

`WalWriter::append` of `wal_writer.cpp` encodes the record and hands it to `write`, which may take only
part of it before it fails. The writer then throws, and does NOTHING about the bytes that are already in
the file: the next append goes behind them.

So a torn append is harmless as long as nothing is written behind it; a scan then delivers the records of
the successful appends. A header that was torn hides whatever is appended next, for the next record begins
in the middle of it.
-/
import Mathlib.Tactic.IntervalCases
import NebulaKV.Effects.Program
import NebulaKV.Lsm.WalReader

namespace NebulaKV.Lsm

open Effects WalFormat WalReader

namespace WalWriter

/-- A call of `append`: `failsAfter` is the number of bytes `write` took before it failed. -/
structure Append where
  record : WalRecord
  failsAfter : Option Nat := none
  deriving DecidableEq

/-- The file is open for appending. -/
def append (call : Append) : Program Bytes Error Unit := do
  let encoded ← Program.check (serialize call.record)
  match call.failsAfter with
  | none => Program.update fun file => file ++ encoded
  | some written => do
    Program.update fun file => file ++ encoded.take written
    Program.raise (.runtimeError "failed to append WAL record")

/-- The file after some calls; a throw is caught and the writer used again. -/
def log (calls : List Append) : Bytes := calls.foldl (fun file call => (append call file).2) []

/-- The call does not throw. -/
def Append.returns (call : Append) : Bool := (append call []).1.toOption.isSome

/-- The records of the calls that returned. -/
def succeeded (calls : List Append) : List WalRecord :=
  (calls.filter Append.returns).map Append.record

/-- What a call leaves in the file. -/
def Append.left (call : Append) : Bytes :=
  if call.record.validate = .ok () then
    match call.failsAfter with
    | none => encode call.record
    | some written => (encode call.record).take written
  else []

theorem append_eq (call : Append) (file : Bytes) :
    (append call file).2 = file ++ call.left ∧
      ((append call file).1.toOption.isSome ↔
        call.record.validate = .ok () ∧ call.failsAfter = none) := by
  by_cases hvalid : call.record.validate = .ok ()
  · have hserialize : serialize call.record = .ok (encode call.record) :=
      serialize_eq_ok.mpr ⟨hvalid, rfl⟩
    simp only [append, hserialize, Program.check_ok_bind, Append.left, if_pos hvalid]
    cases call.failsAfter with
    | none => exact ⟨rfl, by simp [hvalid, Except.toOption]⟩
    | some written =>
      refine ⟨rfl, ?_⟩
      simp [Program.update_bind_apply, Except.toOption]
  · cases hs : serialize call.record with
    | ok encoded => exact absurd (serialize_eq_ok.mp hs).1 hvalid
    | error e =>
      have hthrow : append call file = (.error e, file) := by
        simp only [append, hs]
        rfl
      rw [hthrow, Append.left, if_neg hvalid]
      exact ⟨by simp, by simp [hvalid, Except.toOption]⟩

theorem log_eq (calls : List Append) : log calls = calls.flatMap Append.left := by
  suffices h : ∀ file : Bytes, calls.foldl (fun file call => (append call file).2) file =
      file ++ calls.flatMap Append.left from h []
  induction calls with
  | nil => simp
  | cons call rest ih =>
    intro file
    rw [List.foldl_cons, (append_eq call file).1, ih, List.flatMap_cons, List.append_assoc]

variable {calls : List Append} {call : Append}

theorem returns_iff :
    call.returns = true ↔ call.record.validate = .ok () ∧ call.failsAfter = none :=
  (append_eq call []).2

theorem succeeded_cons (call : Append) (calls : List Append) :
    succeeded (call :: calls) =
      if call.returns then call.record :: succeeded calls else succeeded calls := by
  unfold succeeded
  rw [List.filter_cons]
  split_ifs <;> rfl

theorem mem_succeeded {record : WalRecord} (h : record ∈ succeeded calls) :
    record.validate = .ok () := by
  obtain ⟨call, hcall, rfl⟩ := List.mem_map.mp h
  exact (returns_iff.mp (List.mem_filter.mp hcall).2).1

/-- `write` fails after some bytes of a record, and not at its end. -/
def Append.Partial (call : Append) : Prop :=
  ∀ written, call.failsAfter = some written → written < (encode call.record).length

/-- A part of the record is left in the file. -/
def Append.Tears (call : Append) : Prop :=
  call.record.validate = .ok () ∧ ∃ written, call.failsAfter = some written ∧ written ≠ 0

/-- The record is refused, or `write` fails at once. -/
def Append.WritesNothing (call : Append) : Prop :=
  call.record.validate ≠ .ok () ∨ call.failsAfter = some 0

theorem Append.WritesNothing.spec (h : call.WritesNothing) :
    call.left = [] ∧ ¬ call.returns = true := by
  rcases h with hinvalid | hzero
  · refine ⟨if_neg hinvalid, fun hreturns => hinvalid (returns_iff.mp hreturns).1⟩
  · refine ⟨?_, fun hreturns => ?_⟩
    · rw [Append.left, hzero]
      exact ite_self []
    · rw [(returns_iff.mp hreturns).2] at hzero
      cases hzero

/-- A call that leaves no part of its record leaves all of it or nothing. -/
theorem Append.left_append (h : ¬ call.Tears) (calls : List Append) :
    call.left ++ encodeAll (succeeded calls) = encodeAll (succeeded (call :: calls)) := by
  by_cases hreturns : call.returns = true
  · obtain ⟨hvalid, hnone⟩ := returns_iff.mp hreturns
    rw [succeeded_cons, if_pos hreturns, encodeAll_cons, Append.left, if_pos hvalid, hnone]
  have hnothing : call.WritesNothing := by
    by_contra hwrites
    obtain ⟨hvalid, hfails⟩ := not_or.mp hwrites
    rw [not_not] at hvalid
    cases hcall : call.failsAfter with
    | none => exact hreturns (returns_iff.mpr ⟨hvalid, hcall⟩)
    | some written =>
      exact h ⟨hvalid, written, hcall, fun hzero => hfails (by rw [hcall, hzero])⟩
  rw [succeeded_cons, if_neg hreturns, hnothing.spec.1, List.nil_append]

theorem log_cons (call : Append) (calls : List Append) : log (call :: calls) = call.left ++ log calls := by
  rw [log_eq, log_eq, List.flatMap_cons]

theorem log_of_not_tears (h : ∀ call ∈ calls, ¬ call.Tears) :
    log calls = encodeAll (succeeded calls) := by
  induction calls with
  | nil => rfl
  | cons call calls ih =>
    rw [log_cons, ih (List.forall_mem_cons.mp h).2,
      Append.left_append (h call List.mem_cons_self)]

theorem log_of_writesNothing (h : ∀ call ∈ calls, call.WritesNothing) :
    log calls = [] ∧ succeeded calls = [] := by
  constructor
  · rw [log_eq, List.flatMap_eq_nil_iff]
    exact fun call hcall => (h call hcall).spec.1
  · rw [succeeded, List.map_eq_nil_iff, List.filter_eq_nil_iff]
    exact fun call hcall => (h call hcall).spec.2

/-- Behind the successful records lies a part of one record at most. -/
theorem exists_tail (hcut : ∀ call ∈ calls, call.Partial)
    (h : calls.Pairwise fun earlier later => earlier.Tears → later.WritesNothing) :
    ∃ tail, log calls = encodeAll (succeeded calls) ++ tail ∧
      ∀ record rest, readRecord tail ≠ .read record rest := by
  induction calls with
  | nil => exact ⟨[], rfl, fun record rest hread => by cases hread⟩
  | cons call calls ih =>
    obtain ⟨hcall, hcalls⟩ := List.pairwise_cons.mp h
    by_cases htears : call.Tears
    · -- nothing is written behind it
      obtain ⟨hnil, hnone⟩ := log_of_writesNothing fun later hlater => hcall later hlater htears
      obtain ⟨hvalid, written, hfails, hpos⟩ := htears
      have hleft : call.left = (encode call.record).take written := by
        rw [Append.left, if_pos hvalid, hfails]
      have hthrows : ¬ call.returns = true := fun hreturns => by
        rw [(returns_iff.mp hreturns).2] at hfails
        cases hfails
      refine ⟨call.left, ?_, fun record rest hread => ?_⟩
      · rw [log_cons, hnil, succeeded_cons, if_neg hthrows, hnone, List.append_nil, encodeAll_nil,
          List.nil_append]
      · rw [hleft, readRecord_cut hvalid hpos (hcut call List.mem_cons_self written hfails)]
          at hread
        cases hread
    · obtain ⟨tail, hlog, htail⟩ := ih (List.forall_mem_cons.mp hcut).2 hcalls
      refine ⟨tail, ?_, htail⟩
      rw [log_cons, hlog, ← List.append_assoc, Append.left_append htears]

/-! ## A torn header -/

/-- The lengths of a valid record are too small for their upper bytes. -/
theorem header_eq {record : WalRecord} (hvalid : record.validate = .ok ()) :
    header record = [78, 75, 86, 87, 1, 0, record.operation.code, 0,
      UInt8.ofNat record.key.length, UInt8.ofNat (record.key.length / 256), 0, 0,
      UInt8.ofNat record.value.length, UInt8.ofNat (record.value.length / 256),
      UInt8.ofNat (record.value.length / 256 / 256), 0] := by
  obtain ⟨⟨-, hkey⟩, hvalue, -⟩ := WalRecord.validate_eq_ok.mp hvalid
  unfold kMaxKeySize at hkey
  unfold ValidValue kMaxValueSize at hvalue
  have hk : record.key.length / 256 / 256 = 0 := by omega
  have hv : record.value.length / 256 / 256 / 256 = 0 := by omega
  simp [header, kMagic, kVersion, Codec.leBytes, hk, hv]

/-- Behind a torn header the magic of the next record lies where no valid header has those bytes. -/
theorem readRecord_torn_header (torn next : WalRecord) {written : Nat} (hpos : written ≠ 0)
    (hlt : written < WalFormat.kHeaderSize) (rest : Bytes) (record : WalRecord) (rest' : Bytes) :
    readRecord ((encode torn).take written ++ (encode next ++ rest)) ≠ .read record rest' := by
  intro hread
  obtain ⟨hvalid, hbytes⟩ := readRecord_eq_read.mp hread
  have hlen : ((encode torn).take written).length = written := by
    rw [List.length_take, length_encode]
    omega
  have hat : ∀ i, i < 4 → written + i < 16 → (header record)[written + i]? = kMagic[i]? := by
    intro i hi hin
    have hleft : (encode record ++ rest')[written + i]? = (header record)[written + i]? := by
      rw [encode, body, List.append_assoc, List.append_assoc, List.getElem?_append_left]
      rwa [length_header]
    have hright : (encode next ++ rest)[i]? = kMagic[i]? := by
      rw [encode, body, header]
      simp only [List.append_assoc]
      exact List.getElem?_append_left hi
    rw [← hleft, ← hright, ← hbytes, List.getElem?_append_right (by omega), hlen,
      Nat.add_sub_cancel_left]
  rw [header_eq hvalid] at hat
  unfold WalFormat.kHeaderSize at hlt
  -- magic, version, operation and the reserved byte differ from 78; the upper bytes of a length are zero
  have hlow : 1 ≤ written := Nat.one_le_iff_ne_zero.mpr hpos
  have hfirst := hat 0 (by omega)
  have hsecond := hat 1 (by omega)
  have hthird := hat 2 (by omega)
  have hfourth := hat 3 (by omega)
  clear hat hread hbytes hlen hvalid hpos
  interval_cases written
  case «6» =>
      generalize record.operation = operation at hfirst
      cases operation <;> simp [kMagic, OperationType.code] at hfirst
  all_goals simp [kMagic] at hfirst hsecond hthird hfourth

/-- **What a scan delivers.** The records of the appends that returned, if behind an append that left a part
of its record no append writes anything. But if the header was torn and the next append returns, then only
the records in front of it. -/
theorem scan_log_eq (calls : List Append) :
    ((∀ call ∈ calls, call.Partial) →
      (calls.Pairwise fun earlier later => earlier.Tears → later.WritesNothing) →
        (scan (log calls)).records = succeeded calls) ∧
    ∀ (before after : List Append) (torn next : Append) (written : Nat),
      calls = before ++ torn :: next :: after →
      (∀ call ∈ before, ¬ call.Tears) → torn.Tears → torn.failsAfter = some written →
      written < WalFormat.kHeaderSize → next.returns = true →
        (scan (log calls)).records = succeeded before := by
  constructor
  · intro hcut hquiet
    obtain ⟨tail, hlog, htail⟩ := exists_tail hcut hquiet
    rw [hlog, records_scan (fun _ => mem_succeeded) htail]
  · rintro before after torn next written rfl hbefore htorn hfails hlt hnext
    obtain ⟨hvalid, written', hfails', hpos⟩ := htorn
    cases hfails.symm.trans hfails'
    obtain ⟨hnextValid, hnone⟩ := returns_iff.mp hnext
    have hlog : log (before ++ torn :: next :: after) = encodeAll (succeeded before) ++
        ((encode torn.record).take written ++ (encode next.record ++ log after)) := by
      rw [log_eq, List.flatMap_append, ← log_eq, log_of_not_tears hbefore, List.flatMap_cons,
        List.flatMap_cons, ← log_eq, Append.left, if_pos hvalid, hfails, Append.left,
        if_pos hnextValid, hnone]
    rw [hlog, records_scan (fun _ => mem_succeeded)
      (readRecord_torn_header torn.record next.record hpos hlt (log after))]

/-- A record, a refused one, a torn one, and a `write` that fails at once. -/
def tornLast : List Append :=
  [⟨⟨.Put, [1], [2]⟩, none⟩, ⟨⟨.Put, [], [2]⟩, none⟩, ⟨⟨.Put, [3], [4]⟩, some 20⟩,
    ⟨⟨.Delete, [1], []⟩, some 0⟩]

theorem scan_log_eq_tornLast :
    ((scan (log tornLast)).records = succeeded tornLast ∧
      succeeded tornLast = [⟨.Put, [1], [2]⟩]) ∧
    (scan (log (tornLast.take 2 ++ [⟨⟨.Put, [3], [4]⟩, some 7⟩, ⟨⟨.Delete, [1], []⟩, none⟩]))).records =
      succeeded (tornLast.take 2) := by
  have hwhole : ∀ call ∈ tornLast.take 2, ¬ call.Tears := by
    rintro call hcall ⟨-, written, hfails, -⟩
    simp only [tornLast, List.take_succ_cons, List.take_zero, List.mem_cons, List.not_mem_nil,
      or_false] at hcall
    rcases hcall with rfl | rfl <;> cases hfails
  refine ⟨⟨(scan_log_eq tornLast).1 ?_ ?_, by decide +kernel⟩,
    (scan_log_eq _).2 (tornLast.take 2) [] _ _ 7 rfl hwhole ⟨by decide, 7, rfl, by decide⟩ rfl
      (by decide) (by decide)⟩
  · intro call hcall written hfails
    simp only [tornLast, List.mem_cons, List.not_mem_nil, or_false] at hcall
    rcases hcall with rfl | rfl | rfl | rfl
    · cases hfails
    · cases hfails
    · cases hfails
      decide
    · cases hfails
      decide
  · have hlast : Append.WritesNothing ⟨⟨.Delete, [1], []⟩, some 0⟩ := Or.inr rfl
    have hfirst := hwhole _ (List.mem_cons_self)
    have hsecond := hwhole _ (List.mem_cons_of_mem _ List.mem_cons_self)
    simp [tornLast, hfirst, hsecond, hlast]

/-- The first append fails after five bytes, the second succeeds. -/
def tornThenWhole : List Append := [⟨⟨.Put, [1], [2]⟩, some 5⟩, ⟨⟨.Put, [3], [4]⟩, none⟩]

/-- The successful append is lost: the scan stops at the torn bytes in front of it. -/
theorem torn_append_hides_next :
    succeeded tornThenWhole = [⟨.Put, [3], [4]⟩] ∧
      (scan (log tornThenWhole)).records = [] ∧
      (scan (log tornThenWhole)).issue = some ⟨.UnsupportedVersion, 0⟩ := by
  decide +kernel

end WalWriter

end NebulaKV.Lsm
