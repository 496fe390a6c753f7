/-
# What a power loss leaves of the write-ahead log

`WalWriter` with its three durability modes. A write goes to the kernel (`content`); `fsync` brings it to
the device (`synced`). In `Sync` mode every append ends with it, in `Batch` mode a thread does it from time
to time, in `None` mode nobody does. All members are under one mutex, so the calls and the rounds of the
thread are atomic and come in any order; each system call may fail.

A PROMISE is a call that has returned and after which records are meant to be safe: an append in `Sync`
mode, a `flush` in any mode, and a recovery. Whatever the order of the calls, whichever system call fails
and however often the power is lost, recovery brings all promised records back. There is one exception, a
`write` that fails half-way: behind it `scan` finds nothing until the log is emptied or recovered, and no
promise is written down (`torn`).
-/
import NebulaKV.Lsm.WalWriter
import NebulaKV.Lsm.Recovery

namespace NebulaKV.Lsm

open Containers Effects Program WalFormat WalReader

inductive DurabilityMode where
  | Sync
  | Batch
  | None
  deriving DecidableEq

namespace WalWriter

/-- The members of `WalWriter`, and its file. -/
structure Writer where
  mode : DurabilityMode
  content : Bytes := []
  synced : Bytes := []
  dirty : Bool := false
  stopping : Bool := false
  backgroundFlushError : Option Error := none
  bytesAppended : Nat := 0

namespace Writer

/-- The argument says whether `fsync` works. -/
def syncFile (works : Bool) : Program Writer Error Unit :=
  if works then Program.update fun writer => { writer with synced := writer.content }
  else Program.raise (.runtimeError "failed to fsync WAL file")

def flushLocked (works : Bool) : Program Writer Error Unit := do
  let writer ← Program.read
  if !writer.dirty then pure ()
  else do
    syncFile works
    Program.update fun writer => { writer with dirty := false }

def throwIfBackgroundFlushFailed : Program Writer Error Unit := do
  let writer ← Program.read
  match writer.backgroundFlushError with
  | some e => Program.raise e
  | none => pure ()

def writeAll (bytes : Bytes) : Option Nat → Program Writer Error Unit
  | none => Program.update fun writer => { writer with content := writer.content ++ bytes }
  | some written => do
    Program.update fun writer => { writer with content := writer.content ++ bytes.take written }
    Program.raise (.runtimeError "failed to append WAL record")

def append (call : Append) (works : Bool) : Program Writer Error Unit := do
  let encoded ← Program.check (serialize call.record)
  throwIfBackgroundFlushFailed
  writeAll encoded call.failsAfter
  Program.update fun writer =>
    { writer with bytesAppended := (writer.bytesAppended + encoded.length) % u64, dirty := true }
  let writer ← Program.read
  if writer.mode = .Sync then flushLocked works else pure ()

def flush (works : Bool) : Program Writer Error Unit := do
  throwIfBackgroundFlushFailed
  flushLocked works

def truncateFile (works : Bool) : Program Writer Error Unit :=
  if works then Program.update fun writer => { writer with content := [] }
  else Program.raise (.runtimeError "failed to truncate WAL file")

/-- Three system calls, each of which may fail. -/
def reset (works truncates syncs : Bool) : Program Writer Error Unit := do
  throwIfBackgroundFlushFailed
  flushLocked works
  truncateFile truncates
  syncFile syncs
  Program.update fun writer => { writer with bytesAppended := 0, dirty := false }

/-- A round of `batch_flush_loop`, if there is a thread and it goes on. -/
def batchRound (works : Bool) (writer : Writer) : Writer :=
  if writer.mode = .Batch ∧ writer.stopping = false ∧ writer.dirty = true then
    match flushLocked works writer with
    | (.ok (), writer') => writer'
    | (.error e, writer') => { writer' with backgroundFlushError := some e, stopping := true }
  else writer

/-- The thread is told to stop and waited for. -/
def joinThread (works : Bool) (writer : Writer) : Writer :=
  if writer.mode = .Batch then
    -- behind its loop it flushes what is left
    if writer.dirty = true ∧ writer.backgroundFlushError = none then
      match flushLocked works { writer with stopping := true } with
      | (.ok (), writer') => writer'
      | (.error e, writer') => { writer' with backgroundFlushError := some e }
    else { writer with stopping := true }
  else writer

/-- The destructor. -/
def close (works works' : Bool) (writer : Writer) : Writer :=
  let joined := joinThread works writer
  if joined.dirty = true ∧ joined.mode ≠ .None then (flushLocked works' joined).2 else joined

/-- **What a power loss may leave**: the file as it was synced last, or a later state of it that has all
that the device and the kernel agree on. -/
def Leaves (writer : Writer) (left : Bytes) : Prop :=
  left = writer.synced ∨
    left <+: writer.content ∧
      ∀ part, part <+: writer.synced → part <+: writer.content → part <+: left

end Writer

/-! ## Runs -/

/-- A call, or a round of the thread. -/
inductive Event where
  | append (call : Append) (works : Bool)
  | flush (works : Bool)
  | reset (works truncates syncs : Bool)
  | background (works : Bool)

def Event.perform : Event → Program Writer Error Unit
  | .append call works => Writer.append call works
  | .flush works => Writer.flush works
  | .reset works truncates syncs => Writer.reset works truncates syncs
  | .background works => Program.update (Writer.batchRound works)

/-- A writer, the records at the front of its file, how many of them have been promised, and whether
there is a part of a record behind them. -/
structure Run where
  writer : Writer
  written : List WalRecord := []
  promised : Nat := 0
  torn : Bool := false

/-- What an observer writes down. -/
def Event.note (event : Event) (result : Except Error Unit) (writer : Writer) (run : Run) : Run :=
  match event with
  | .append call _ =>
    if writer.content = run.writer.content then { run with writer }
    else if run.torn = false ∧ call.failsAfter = none then
      { writer
        written := run.written ++ [call.record]
        promised := if result.isOk ∧ writer.mode = .Sync then (run.written ++ [call.record]).length
          else run.promised }
    else { run with writer, torn := true }
  | .flush _ =>
    { run with writer, promised := if result.isOk then run.written.length else run.promised }
  | .reset _ _ _ => if writer.content = [] then { writer } else { run with writer }
  | .background _ => { run with writer }

def Run.step (run : Run) (event : Event) : Run :=
  event.note (event.perform run.writer).1 (event.perform run.writer).2 run

/-- A writer on what `recover` has left of a file, if there was one. -/
def Run.reopen (mode : DurabilityMode) (left : Bytes) : Run where
  -- the cut is not synced
  writer := { mode := mode, content := encodeAll (scan left).records, synced := left }
  written := (scan left).records
  promised := (scan left).records.length

/-- **The lives of a log**, one power loss after the other. -/
inductive Reached : Run → Prop where
  | start (mode : DurabilityMode) : Reached (Run.reopen mode [])
  | step {run : Run} (h : Reached run) (event : Event) : Reached (run.step event)
  | lost {run : Run} (h : Reached run) {left : Bytes} (hleft : run.writer.Leaves left)
      (mode : DurabilityMode) : Reached (Run.reopen mode left)

/-- What the members say about the file. -/
structure Run.Kept (run : Run) : Prop where
  valid : ∀ record ∈ run.written, record.validate = .ok ()
  front : encodeAll run.written <+: run.writer.content
  whole : run.torn = false → run.writer.content = encodeAll run.written
  clean : run.writer.dirty = false → encodeAll run.written <+: run.writer.synced
  le : run.promised ≤ run.written.length
  safe : encodeAll (run.written.take run.promised) <+: run.writer.synced

/-! ## One call -/

namespace Writer

/-- All that was written is on the device. -/
def flushed (writer : Writer) : Writer := { writer with synced := writer.content, dirty := false }

theorem flushLocked_cases (works : Bool) (writer : Writer) :
    (writer.dirty = false ∧ flushLocked works writer = (.ok (), writer)) ∨
    flushLocked works writer = (.ok (), writer.flushed) ∨
    works = false ∧ ∃ e, flushLocked works writer = (.error e, writer) := by
  unfold flushLocked
  rw [read_bind_apply]
  cases writer.dirty with
  | false => exact Or.inl ⟨rfl, rfl⟩
  | true =>
    cases works with
    | true => exact Or.inr (Or.inl rfl)
    | false => exact Or.inr (Or.inr ⟨rfl, _, rfl⟩)

/-- A call behind the check of the thread's error. -/
theorem throwIf_cases (f : Unit → Program Writer Error Unit) (writer : Writer) :
    (writer.backgroundFlushError = none ∧
      (throwIfBackgroundFlushFailed >>= f) writer = f () writer) ∨
    ∃ e, writer.backgroundFlushError = some e ∧
      (throwIfBackgroundFlushFailed >>= f) writer = (.error e, writer) := by
  unfold throwIfBackgroundFlushFailed
  rw [bind_apply, read_bind_apply]
  cases writer.backgroundFlushError with
  | none => exact Or.inl ⟨rfl, rfl⟩
  | some e => exact Or.inr ⟨e, rfl, rfl⟩

/-- The bytes are in the file, and not yet on the device. -/
def grown (writer : Writer) (bytes : Bytes) : Writer :=
  { writer with
    content := writer.content ++ bytes
    bytesAppended := (writer.bytesAppended + bytes.length) % u64
    dirty := true }

theorem append_cases (call : Append) (works : Bool) (writer : Writer) :
    (∃ e, append call works writer = (.error e, writer)) ∨
    (∃ e written, call.failsAfter = some written ∧ append call works writer = (.error e,
      { writer with content := writer.content ++ (encode call.record).take written })) ∨
    call.record.validate = .ok () ∧ call.failsAfter = none ∧
      (writer.mode = .Sync ∧
        append call works writer = (.ok (), (writer.grown (encode call.record)).flushed) ∨
      ∃ result : Except Error Unit, ¬ (result.isOk ∧ writer.mode = .Sync) ∧
        append call works writer = (result, writer.grown (encode call.record))) := by
  unfold append
  cases hserialize : serialize call.record with
  | error e => exact Or.inl ⟨e, rfl⟩
  | ok bytes =>
    obtain ⟨hvalid, rfl⟩ := serialize_eq_ok.mp hserialize
    rw [check_ok_bind]
    rcases throwIf_cases _ writer with ⟨-, heq⟩ | ⟨e, -, heq⟩
    · rw [heq]
      cases call.failsAfter with
      | some written => exact Or.inr (Or.inl ⟨_, written, rfl, rfl⟩)
      | none =>
        refine Or.inr (Or.inr ⟨hvalid, rfl, ?_⟩)
        show _ ∧ (if writer.mode = .Sync then flushLocked works else pure ()) (writer.grown _) = _ ∨
          ∃ result : Except Error Unit, _ ∧
            (if writer.mode = .Sync then flushLocked works else pure ()) (writer.grown _) = _
        split_ifs with hsync
        · rcases flushLocked_cases works (writer.grown (encode call.record)) with
            ⟨hclean, -⟩ | hflush | ⟨-, e, hflush⟩
          · cases hclean
          · exact Or.inl ⟨hsync, hflush⟩
          · exact Or.inr ⟨_, fun hok => (by cases hok.1), hflush⟩
        · exact Or.inr ⟨_, fun hok => hsync hok.2, rfl⟩
    · exact Or.inl ⟨e, heq⟩

/-- The file is empty, or nothing but a flush has happened. -/
theorem reset_cases (works truncates syncs : Bool) (writer : Writer) :
    (reset works truncates syncs writer).2.content = [] ∨
      (reset works truncates syncs writer).2 = writer ∨
      (reset works truncates syncs writer).2 = writer.flushed := by
  unfold reset
  rcases throwIf_cases _ writer with ⟨-, heq⟩ | ⟨e, -, heq⟩
  · rw [heq, bind_apply]
    rcases flushLocked_cases works writer with ⟨-, hflush⟩ | hflush | ⟨-, e, hflush⟩ <;>
      rw [hflush] <;> cases truncates <;> cases syncs <;>
      simp [truncateFile, syncFile, bind_apply, raise, update, flushed]
  · rw [heq]
    exact Or.inr (Or.inl rfl)

end Writer

namespace Run

variable {run : Run}
variable {writer : Writer}

theorem encodeAll_take_front (records : List WalRecord) (n : Nat) :
    encodeAll (records.take n) <+: encodeAll records :=
  ⟨encodeAll (records.drop n), by rw [← encodeAll_append, List.take_append_drop]⟩

/-- A promise of what is on the device. -/
theorem Kept.promise (h : run.Kept) (hsynced : encodeAll run.written <+: run.writer.synced) :
    Kept { run with promised := run.written.length } :=
  { h with
    le := le_rfl
    safe := by
      show encodeAll (run.written.take run.written.length) <+: _
      rwa [List.take_length] }

theorem Kept.flushed (h : run.Kept) : Kept { run with writer := run.writer.flushed } :=
  { h with
    clean := fun _ => h.front
    safe := (encodeAll_take_front _ _).trans h.front }

/-- More bytes, of which no record is expected. -/
theorem Kept.torn (h : run.Kept) (hcontent : run.writer.content <+: writer.content)
    (hsynced : writer.synced = run.writer.synced)
    (hdirty : writer.dirty = false → run.writer.dirty = false) :
    Kept { run with writer := writer, torn := true } where
  valid := h.valid
  front := h.front.trans hcontent
  whole hwhole := by cases hwhole
  clean hclean := by
    rw [hsynced]
    exact h.clean (hdirty hclean)
  le := h.le
  safe := by
    rw [hsynced]
    exact h.safe

theorem Kept.written (h : run.Kept) (hwhole : run.torn = false) {record : WalRecord}
    (hvalid : record.validate = .ok ()) :
    Kept
      { writer := run.writer.grown (encode record)
        written := run.written ++ [record]
        promised := run.promised } := by
  have hcontent : run.writer.content ++ encode record = encodeAll (run.written ++ [record]) := by
    rw [h.whole hwhole, encodeAll_append, encodeAll_cons, encodeAll_nil, List.append_nil]
  refine ⟨fun other hother => ?_, hcontent ▸ List.prefix_rfl, fun _ => hcontent,
    fun hclean => (by cases hclean), ?_, ?_⟩
  · rcases List.mem_append.mp hother with hold | hnew
    · exact h.valid other hold
    · obtain rfl := List.mem_singleton.mp hnew
      exact hvalid
  · rw [List.length_append]
    exact h.le.trans (Nat.le_add_right _ _)
  · show encodeAll ((run.written ++ [record]).take run.promised) <+: run.writer.synced
    rw [List.take_append_of_le_length h.le]
    exact h.safe

theorem note_append_same (h : writer.content = run.writer.content) (call : Append) (works : Bool)
    (result : Except Error Unit) :
    Event.note (.append call works) result writer run = { run with writer } := if_pos h

theorem note_append_written (h : writer.content ≠ run.writer.content) {call : Append}
    (hwhole : run.torn = false ∧ call.failsAfter = none) (works : Bool) (result : Except Error Unit) :
    Event.note (.append call works) result writer run =
      { writer
        written := run.written ++ [call.record]
        promised := if result.isOk ∧ writer.mode = .Sync then (run.written ++ [call.record]).length
          else run.promised } := (if_neg h).trans (if_pos hwhole)

theorem note_append_torn (h : writer.content ≠ run.writer.content) {call : Append}
    (htorn : ¬ (run.torn = false ∧ call.failsAfter = none)) (works : Bool)
    (result : Except Error Unit) :
    Event.note (.append call works) result writer run = { run with writer, torn := true } :=
  (if_neg h).trans (if_neg htorn)

theorem Kept.append (h : run.Kept) (call : Append) (works : Bool) :
    (run.step (.append call works)).Kept := by
  show Kept (Event.note _ (Writer.append call works run.writer).1
    (Writer.append call works run.writer).2 run)
  rcases Writer.append_cases call works run.writer with
    ⟨e, heq⟩ | ⟨e, written, hfails, heq⟩ | ⟨hvalid, hfails, heq⟩
  · rw [heq, note_append_same rfl]
    exact h
  · rw [heq]
    by_cases hpart : (encode call.record).take written = []
    · rw [hpart, List.append_nil, note_append_same rfl]
      exact h
    · have hlonger : run.writer.content ++ (encode call.record).take written ≠ run.writer.content :=
        fun hsame => hpart (List.append_right_eq_self.mp hsame)
      rw [note_append_torn hlonger fun hwhole => by rw [hfails] at hwhole; cases hwhole.2]
      exact h.torn (List.prefix_append _ _) rfl id
  · have hlonger : run.writer.content ++ encode call.record ≠ run.writer.content := fun hsame =>
      encode_ne_nil call.record (List.append_right_eq_self.mp hsame)
    by_cases htorn : run.torn = false
    · have hwritten := h.written htorn hvalid
      rcases heq with ⟨hsync, heq⟩ | ⟨result, hnot, heq⟩
      · rw [heq, note_append_written hlonger ⟨htorn, hfails⟩, if_pos ⟨rfl, hsync⟩]
        exact hwritten.flushed.promise hwritten.front
      · rw [heq, note_append_written hlonger ⟨htorn, hfails⟩]
        split_ifs with hok
        · exact absurd hok hnot
        · exact hwritten
    · -- behind a part of a record nothing is expected any more
      have hkept : Kept { run with writer := run.writer.grown (encode call.record), torn := true } :=
        h.torn (List.prefix_append _ _) rfl fun hclean => by cases hclean
      rcases heq with ⟨-, heq⟩ | ⟨result, -, heq⟩
      · rw [heq, note_append_torn hlonger fun hwhole => htorn hwhole.1]
        exact hkept.flushed
      · rw [heq, note_append_torn hlonger fun hwhole => htorn hwhole.1]
        exact hkept

theorem Kept.flush (h : run.Kept) (works : Bool) : (run.step (.flush works)).Kept := by
  show Kept (Event.note (.flush works) (Writer.flush works run.writer).1
    (Writer.flush works run.writer).2 run)
  unfold Writer.flush
  rcases Writer.throwIf_cases (fun _ => Writer.flushLocked works) run.writer with
    ⟨-, heq⟩ | ⟨e, -, heq⟩
  · rw [heq]
    rcases Writer.flushLocked_cases works run.writer with
      ⟨hclean, hflush⟩ | hflush | ⟨-, e, hflush⟩
    · rw [hflush]
      exact h.promise (h.clean hclean)
    · rw [hflush]
      exact h.flushed.promise h.front
    · rw [hflush]
      exact h
  · rw [heq]
    exact h

/-- An empty log. -/
theorem kept_of_empty (h : writer.content = []) : Kept { writer } :=
  ⟨fun _ hrec => (by cases hrec), List.nil_prefix, fun _ => h, fun _ => List.nil_prefix, le_rfl,
    List.nil_prefix⟩

theorem Kept.reset (h : run.Kept) (works truncates syncs : Bool) :
    (run.step (.reset works truncates syncs)).Kept := by
  unfold step Event.perform Event.note
  dsimp only
  split_ifs with hempty
  · exact kept_of_empty hempty
  · rcases Writer.reset_cases works truncates syncs run.writer with hnil | hsame | hflushed
    · exact absurd hnil hempty
    · rw [hsame]
      exact h
    · rw [hflushed]
      exact h.flushed

theorem Kept.background (h : run.Kept) (works : Bool) : (run.step (.background works)).Kept := by
  show Kept { run with writer := Writer.batchRound works run.writer }
  unfold Writer.batchRound
  split_ifs
  · rcases Writer.flushLocked_cases works run.writer with ⟨-, hflush⟩ | hflush | ⟨-, e, hflush⟩
    · rw [hflush]
      exact h
    · rw [hflush]
      exact h.flushed
    · rw [hflush]
      exact { h with }
  · exact h

theorem Kept.step (h : run.Kept) (event : Event) : (run.step event).Kept := by
  cases event with
  | append call works => exact h.append call works
  | flush works => exact h.flush works
  | reset works truncates syncs => exact h.reset works truncates syncs
  | background works => exact h.background works

/-! ## A power loss -/

/-- Records at the front of a file are read, whatever follows them. -/
theorem prefix_scan {records : List WalRecord} {bytes : Bytes}
    (hvalid : ∀ record ∈ records, record.validate = .ok ()) (h : encodeAll records <+: bytes) :
    records <+: (scan bytes).records := by
  obtain ⟨tail, rfl⟩ := h
  obtain ⟨more, rest, rfl, hmore, hrest⟩ := exists_records tail
  have hall : ∀ record ∈ records ++ more, record.validate = .ok () := fun record hrec =>
    (List.mem_append.mp hrec).elim (hvalid record) (hmore record)
  rw [← List.append_assoc, ← encodeAll_append, scan_eq hall rest hrest]
  cases readRecord rest <;> exact List.prefix_append _ _

/-- **The scan reads what is promised.** -/
theorem Kept.survives (h : run.Kept) {left : Bytes} (hleaves : run.writer.Leaves left) :
    run.written.take run.promised <+: (scan left).records := by
  refine prefix_scan (fun record hrec => h.valid record (List.mem_of_mem_take hrec)) ?_
  rcases hleaves with rfl | ⟨-, hkept⟩
  · exact h.safe
  · exact hkept _ h.safe ((encodeAll_take_front _ _).trans h.front)

theorem kept_reopen (mode : DurabilityMode) (left : Bytes) : (Run.reopen mode left).Kept := by
  obtain ⟨rest, hleft, hvalid, -, -⟩ := scan_cases left
  have hfront : encodeAll (scan left).records <+: left := ⟨rest, hleft.symm⟩
  refine ⟨hvalid, List.prefix_rfl, fun _ => rfl, fun _ => hfront, le_rfl, ?_⟩
  exact (encodeAll_take_front _ _).trans hfront

end Run

theorem Reached.kept {run : Run} (h : Reached run) : run.Kept := by
  induction h with
  | start mode => exact Run.kept_reopen mode []
  | step h event ih => exact ih.step event
  | lost h hleft mode ih => exact Run.kept_reopen mode _

/-- Two appends in `Sync` mode, of which the second one's `fsync` fails. -/
def oneSynced : Run :=
  ((Run.reopen .Sync []).step (.append ⟨⟨.Put, [1], [2]⟩, none⟩ true)).step
    (.append ⟨⟨.Put, [3], [4]⟩, none⟩ false)

theorem reached_oneSynced : Reached oneSynced := ((Reached.start .Sync).step _).step _

theorem Run.Kept.joined {run : Run} (h : run.Kept) (works : Bool) :
    Run.Kept { run with writer := run.writer.joinThread works } ∧
      (run.writer.joinThread works).mode = run.writer.mode := by
  have hstopped : Run.Kept { run with writer := { run.writer with stopping := true } } :=
    { h with }
  unfold Writer.joinThread
  split_ifs
  · rcases Writer.flushLocked_cases works { run.writer with stopping := true } with
      ⟨-, hflush⟩ | hflush | ⟨-, e, hflush⟩
    · rw [hflush]
      exact ⟨hstopped, rfl⟩
    · rw [hflush]
      exact ⟨hstopped.flushed, rfl⟩
    · rw [hflush]
      exact ⟨{ hstopped with }, rfl⟩
  · exact ⟨hstopped, rfl⟩
  · exact ⟨h, rfl⟩

end WalWriter

end NebulaKV.Lsm
