/-
# The retained log, and requests of any content

The log of a node begins behind its snapshot, so an index is an offset from there. `Retained base log` says
that the offsets are right: the entry at offset `i` carries the index `base + i + 1`, and no term is zero.
Under it the functions of the log are what their names say (`lastLogIndex_eq`, `termAt_above`,
`entriesFrom_eq`, `truncateLogFrom_eq`, `eraseThrough_eq`).

A request may carry anything. `appendable` is the part of it that `append_entries_locked` takes before it
throws, and `unheld` the part that the loop of `handle_append_entries` gets to: with these two,
`mergeEntries` is known on every request (`mergeEntries_apply`).
-/
import NebulaKV.Raft.Stretches

namespace NebulaKV.Raft.RaftNode

open Effects Program

/-- Entries behind an index, without a gap, and none of term zero. -/
def Retained (base : Nat) (log : List LogEntry) : Prop :=
  ∀ i e, log[i]? = some e → e.index = base + i + 1 ∧ e.term ≠ 0

/-- The log of a node begins right behind its snapshot. -/
abbrev Retains {σ : Type} (node : RaftNode σ) : Prop :=
  Retained (snapshotIndex node.snapshot) node.log

section Log

variable {base : Nat} {log : List LogEntry}
variable {after upTo : Nat}

theorem retained_nil (base : Nat) : Retained base [] := fun _ _ h => by simp at h

theorem Retained.index_of_mem (h : Retained base log) {e : LogEntry} (he : e ∈ log) :
    log[e.index - base - 1]? = some e ∧ base < e.index ∧ e.index ≤ base + log.length := by
  obtain ⟨i, hi⟩ := List.mem_iff_getElem?.mp he
  have hindex := (h i e hi).1
  have hlt := (List.getElem?_eq_some_iff.mp hi).1
  refine ⟨?_, by omega, by omega⟩
  rw [show e.index - base - 1 = i by omega]
  exact hi

theorem Retained.take (h : Retained base log) (count : Nat) : Retained base (log.take count) := by
  intro i e he
  rw [List.getElem?_take] at he
  split_ifs at he
  exact h i e he

theorem Retained.drop (h : Retained base log) (count : Nat) :
    Retained (base + count) (log.drop count) := by
  intro i e he
  rw [List.getElem?_drop] at he
  obtain ⟨hindex, hterm⟩ := h _ e he
  exact ⟨by omega, hterm⟩

theorem Retained.concat (h : Retained base log) {e : LogEntry}
    (hindex : e.index = base + log.length + 1) (hterm : e.term ≠ 0) :
    Retained base (log ++ [e]) := by
  intro i e' he
  rcases Nat.lt_or_ge i log.length with hi | hi
  · rw [List.getElem?_append_left hi] at he
    exact h i e' he
  · rw [List.getElem?_append_right hi] at he
    have hzero : i - log.length = 0 := by
      by_contra hne
      rw [List.getElem?_eq_none (by simp; omega)] at he
      cases he
    rw [hzero] at he
    obtain rfl : e = e' := by simpa using he
    exact ⟨by omega, hterm⟩

theorem eraseThrough_eq (h : Retained base log) {x : Nat} (hx : base ≤ x) :
    eraseThrough x log = log.drop (x - base) := by
  induction log generalizing base with
  | nil => simp [eraseThrough]
  | cons e rest ih =>
    have hindex := (h 0 e rfl).1
    have hrest : Retained (base + 1) rest := h.drop 1
    unfold eraseThrough
    rw [List.dropWhile_cons]
    by_cases hle : e.index ≤ x
    · rw [if_pos (by simpa using hle)]
      have hdrop := ih hrest (show base + 1 ≤ x by omega)
      unfold eraseThrough at hdrop
      rw [hdrop, show x - base = x - (base + 1) + 1 by omega, List.drop_succ_cons]
    · rw [if_neg (by simpa using hle), show x - base = 0 by omega, List.drop_zero]

/-- The entries between two indices. -/
def between (log : List LogEntry) (after upTo : Nat) : List LogEntry :=
  log.filter fun e => decide (after < e.index ∧ e.index ≤ upTo)

theorem between_eq_nil (h : ¬ after < upTo) : between log after upTo = [] := by
  refine List.filter_eq_nil_iff.mpr fun e _ he => ?_
  obtain ⟨hafter, hupTo⟩ := of_decide_eq_true he
  omega

/-- The log begins behind its base. -/
theorem Retained.between_base (h : Retained base log) (hafter : after ≤ base) :
    between log after upTo = between log base upTo := by
  refine List.filter_congr fun e he => ?_
  have habove := (h.index_of_mem he).2.1
  exact decide_eq_decide.mpr ⟨fun hboth => ⟨habove, hboth.2⟩, fun hboth => ⟨by omega, hboth.2⟩⟩

theorem Retained.between_cons (h : Retained base log) (hafter : base ≤ after) (hlt : after < upTo)
    (hupTo : upTo ≤ base + log.length) :
    ∃ e, log[after - base]? = some e ∧ between log after upTo = e :: between log (after + 1) upTo := by
  induction log generalizing base with
  | nil =>
    rw [List.length_nil] at hupTo
    omega
  | cons first rest ih =>
    have hindex := (h 0 first rfl).1
    have hrest : Retained (base + 1) rest := h.drop 1
    rw [List.length_cons] at hupTo
    have hskip : ∀ i, first.index ≤ i → between (first :: rest) i upTo = between rest i upTo :=
      fun i hi => List.filter_cons_of_neg fun he => absurd (of_decide_eq_true he).1 (not_lt.mpr hi)
    rcases Nat.eq_or_lt_of_le hafter with rfl | hbehind
    · refine ⟨first, by rw [Nat.sub_self]; rfl, ?_⟩
      have htake : between (first :: rest) base upTo = first :: between rest base upTo :=
        List.filter_cons_of_pos (decide_eq_true ⟨by omega, by omega⟩)
      rw [htake, hskip _ (by omega), hrest.between_base (Nat.le_succ base)]
    · obtain ⟨e, hget, heq⟩ := ih hrest hbehind (by omega)
      refine ⟨e, ?_, ?_⟩
      · rw [show after - base = after - (base + 1) + 1 by omega, List.getElem?_cons_succ]
        exact hget
      · rw [hskip _ (by omega), hskip _ (by omega)]
        exact heq

end Log

section Node

variable {σ : Type} {node : RaftNode σ}
variable {i : Nat}

theorem Retained.lastLogIndex_eq (h : node.Retains) :
    node.lastLogIndex = snapshotIndex node.snapshot + node.log.length := by
  unfold RaftNode.lastLogIndex
  rw [List.getLast?_eq_getElem?]
  cases hlast : node.log[node.log.length - 1]? with
  | none =>
    have hnil := List.getElem?_eq_none_iff.mp hlast
    show snapshotIndex node.snapshot = _
    omega
  | some e =>
    have hlt := (List.getElem?_eq_some_iff.mp hlast).1
    have hindex := (h _ e hlast).1
    show e.index = _
    omega

theorem Retained.termAt_above (h : node.Retains) (hi : snapshotIndex node.snapshot < i) :
    node.termAt i = (node.log[i - snapshotIndex node.snapshot - 1]?).map LogEntry.term := by
  have hretained : node.retainedTermAt i =
      (node.log[i - snapshotIndex node.snapshot - 1]?).map LogEntry.term := by
    unfold retainedTermAt firstIndex
    rw [h.lastLogIndex_eq]
    split_ifs with hout
    · rw [List.getElem?_eq_none (by omega)]
      rfl
    · rw [Nat.sub_sub]
  unfold RaftNode.termAt
  rw [if_neg (by omega)]
  cases hs : node.snapshot with
  | none =>
    rw [hs] at hretained
    exact hretained
  | some s =>
    rw [hs] at hi hretained
    have hne : i ≠ s.lastIncludedIndex := fun heq => absurd hi (by rw [heq]; exact lt_irrefl _)
    simp only [if_neg hne]
    exact hretained

theorem Retained.termAt_eq_none (h : node.Retains) (hi : snapshotIndex node.snapshot < i)
    : node.termAt i = none ↔ node.lastLogIndex < i := by
  rw [h.termAt_above hi, h.lastLogIndex_eq, Option.map_eq_none_iff, List.getElem?_eq_none_iff]
  omega

/-- An index that the snapshot swallowed has no term any more. -/
theorem termAt_covered (hpos : 0 < i) (hi : i < snapshotIndex node.snapshot) :
    node.termAt i = none := by
  unfold termAt retainedTermAt firstIndex
  rw [if_neg (by omega), if_pos (Or.inl (by omega))]
  cases hs : node.snapshot with
  | none => rfl
  | some s =>
    rw [hs] at hi
    exact if_neg hi.ne

/-- A term is known from the snapshot's index on. -/
theorem Retained.termAt_eq_none_iff (h : node.Retains) (hpos : i ≠ 0) :
    node.termAt i = none ↔ i < snapshotIndex node.snapshot ∨ node.lastLogIndex < i := by
  have hlast := h.lastLogIndex_eq
  rcases Nat.lt_trichotomy i (snapshotIndex node.snapshot) with hbefore | heq | habove
  · exact ⟨fun _ => Or.inl hbefore, fun _ => termAt_covered (Nat.pos_of_ne_zero hpos) hbefore⟩
  · refine ⟨fun hnone => absurd hnone ?_, fun hout => by omega⟩
    unfold termAt
    rw [if_neg hpos]
    cases hs : node.snapshot with
    | none =>
      rw [hs] at heq
      exact absurd heq hpos
    | some s =>
      rw [hs] at heq
      simp only [if_pos (show i = s.lastIncludedIndex from heq)]
      exact Option.some_ne_none _
  · rw [h.termAt_eq_none habove]
    exact ⟨Or.inr, fun hout => hout.resolve_left (not_lt.mpr habove.le)⟩

/-- A batch is what lies from an index on. -/
theorem Retained.entriesFrom_eq (h : node.Retains) (hi : snapshotIndex node.snapshot < i)
    : node.entriesFrom i =
      (node.log.drop (i - snapshotIndex node.snapshot - 1)).take node.options.maxAppendEntries := by
  unfold entriesFrom firstIndex
  rw [h.lastLogIndex_eq]
  split_ifs with hbehind hfront
  · rw [List.drop_eq_nil_of_le (by omega), List.take_nil]
  · omega
  · rw [Nat.sub_sub]

theorem Retained.truncateLogFrom_eq (h : node.Retains) (hi : snapshotIndex node.snapshot < i)
    : node.truncateLogFrom i =
      { node with log := node.log.take (i - snapshotIndex node.snapshot - 1) } := by
  unfold truncateLogFrom firstIndex
  rw [h.lastLogIndex_eq]
  split_ifs with hfirst hlast
  · rw [show i - snapshotIndex node.snapshot - 1 = 0 by omega, List.take_zero]
  · rw [List.take_of_length_le (by omega)]
  · rw [Nat.sub_sub]

end Node

/-! ## The constructor's check -/

variable {entries log : List LogEntry}

/-- A log that follows its snapshot passes the constructor's check. -/
theorem contiguous_of_retained {base : Nat} (h : Retained base log) : contiguous log = true := by
  induction log generalizing base with
  | nil => rfl
  | cons first rest ih =>
    cases rest with
    | nil => rfl
    | cons second rest =>
      have hfirst := (h 0 first rfl).1
      have hsecond := (h 1 second rfl).1
      unfold contiguous
      rw [if_neg (by omega)]
      exact ih (h.drop 1)

theorem checkLog_of_retained {σ : Type} {node : RaftNode σ} (h : node.Retains) :
    checkLog node = .ok () := by
  unfold checkLog
  split
  · rfl
  · next front rest hlog =>
      have hfront := (h 0 front (by rw [hlog]; rfl)).1
      rw [if_neg (by omega), if_pos (contiguous_of_retained h)]

/-! ## Appending -/

/-- The entries that are appended before one is refused. -/
def appendable : Nat → List LogEntry → List LogEntry
  | _, [] => []
  | last, entry :: rest =>
    if entry.index ≠ last + 1 ∨ entry.term = 0 then [] else entry :: appendable (last + 1) rest

def invalidAppend : Error := .runtimeError "invalid Raft log append"

variable {last : Nat}

theorem mem_of_mem_appendable {e : LogEntry} (h : e ∈ appendable last entries) : e ∈ entries := by
  induction entries generalizing last with
  | nil => exact h
  | cons entry rest ih =>
    unfold appendable at h
    split_ifs at h with hbad
    · cases h
    · rcases List.mem_cons.mp h with rfl | h
      · exact List.mem_cons_self
      · exact List.mem_cons_of_mem _ (ih h)

theorem Retained.appendable {base : Nat} (h : Retained base log) (hlast : last = base + log.length) :
    Retained base (log ++ appendable last entries) := by
  induction entries generalizing log last with
  | nil => simpa [RaftNode.appendable] using h
  | cons entry rest ih =>
    unfold RaftNode.appendable
    split_ifs with hbad
    · simpa using h
    · push Not at hbad
      have hnext := @ih (log ++ [entry]) (last + 1) (h.concat (by omega) hbad.2) (by simp; omega)
      simpa using hnext

/-- Entries without a gap are appended without objection. -/
theorem Retained.appendable_eq (h : Retained last entries) :
    RaftNode.appendable last entries = entries := by
  induction entries generalizing last with
  | nil => rfl
  | cons entry rest ih =>
    obtain ⟨hindex, hterm⟩ := h 0 entry rfl
    unfold RaftNode.appendable
    rw [if_neg (by omega), ih (h.drop 1)]

section Append

variable {σ : Type} {node : RaftNode σ}

/-- What `append_entries_locked` does with any entries. -/
theorem appendEntries_apply (entries : List LogEntry) (h : node.Retains) :
    appendEntries entries node =
      (if appendable node.lastLogIndex entries = entries then .ok () else .error invalidAppend,
        { node with log := node.log ++ appendable node.lastLogIndex entries }) := by
  induction entries generalizing node with
  | nil => simp [appendEntries, appendable]
  | cons entry rest ih =>
    unfold appendEntries appendable
    rw [read_bind_apply]
    by_cases hbad : entry.index ≠ node.lastLogIndex + 1 ∨ entry.term = 0
    · rw [if_pos hbad, if_pos hbad, if_neg (by simp), List.append_nil]
      rfl
    · rw [if_neg hbad, if_neg hbad, update_bind_apply]
      push Not at hbad
      have hlast := h.lastLogIndex_eq
      have hnext : Retained (snapshotIndex node.snapshot) (node.log ++ [entry]) :=
        h.concat (by omega) hbad.2
      have hlast' : RaftNode.lastLogIndex { node with log := node.log ++ [entry] } =
          node.lastLogIndex + 1 := by
        rw [@Retained.lastLogIndex_eq σ { node with log := node.log ++ [entry] } hnext, hlast]
        simp
        omega
      rw [@ih { node with log := node.log ++ [entry] } hnext, hlast']
      simp only [List.cons.injEq, true_and, List.append_assoc, List.singleton_append]

end Append

/-! ## Merging -/

section Merge

variable {σ : Type} {node : RaftNode σ} {previous position : Nat} {entries : List LogEntry}
variable {incoming : LogEntry}

/-- The node has the entry, in its log or under its snapshot. -/
def Has (node : RaftNode σ) (entry : LogEntry) : Prop :=
  entry.index ≤ snapshotIndex node.snapshot ∨ node.termAt entry.index = some entry.term

instance decidableHas (node : RaftNode σ) (entry : LogEntry) : Decidable (node.Has entry) :=
  inferInstanceAs (Decidable (_ ∨ _))

/-- The entries of a request from the first one on that the node does not have; none, if an entry before
it does not carry the index of its position. -/
def unheld (node : RaftNode σ) (previous : Nat) : Nat → List LogEntry → List LogEntry
  | _, [] => []
  | position, incoming :: rest =>
    if incoming.index ≠ previous + position + 1 then []
    else if node.Has incoming then unheld node previous (position + 1) rest
    else incoming :: rest

/-- The entries carry the indices of their positions. -/
def InPlace (previous : Nat) : Nat → List LogEntry → Prop
  | _, [] => True
  | position, incoming :: rest =>
    incoming.index = previous + position + 1 ∧ InPlace previous (position + 1) rest

theorem Retained.inPlace (h : Retained (previous + position) entries) :
    InPlace previous position entries := by
  induction entries generalizing position with
  | nil => trivial
  | cons incoming rest ih => exact ⟨(h 0 incoming rfl).1, ih (h.drop 1)⟩

/-- In front of the first entry that the node does not have, it has every one. -/
theorem InPlace.unheld_split (node : RaftNode σ) (h : InPlace previous position entries) :
    ∃ front, entries = front ++ unheld node previous position entries ∧ ∀ e ∈ front, node.Has e := by
  induction entries generalizing position with
  | nil => exact ⟨[], rfl, fun _ he => by cases he⟩
  | cons incoming rest ih =>
    unfold unheld
    rw [if_neg (not_not.mpr h.1)]
    split_ifs with hhas
    · obtain ⟨front, hfront, hall⟩ := ih h.2
      exact ⟨incoming :: front, congrArg _ hfront, List.forall_mem_cons.mpr ⟨hhas, hall⟩⟩
    · exact ⟨[], rfl, fun _ he => by cases he⟩

/-- The log in front of an entry that arrives. -/
def cutBefore (node : RaftNode σ) (entry : LogEntry) : RaftNode σ :=
  { node with log := node.log.take (entry.index - snapshotIndex node.snapshot - 1) }

theorem mergeEntries_unheld (h : node.Retains) {rest : List LogEntry} {changed : Bool}
    (hplace : incoming.index = previous + position + 1)
    (hlast : previous + position ≤ node.lastLogIndex) (hnew : ¬ node.Has incoming) :
    mergeEntries previous position (incoming :: rest) changed node =
      (do appendEntries (incoming :: rest); return some true : Locked σ (Option Bool))
        (node.cutBefore incoming) := by
  obtain ⟨hsnapshot, hterm⟩ := not_or.mp hnew
  have habove : snapshotIndex node.snapshot < incoming.index := not_le.mp hsnapshot
  have hlength := h.lastLogIndex_eq
  have hcutTerm : (node.cutBefore incoming).termAt incoming.index = none := by
    have hcut : Retained (snapshotIndex (node.cutBefore incoming).snapshot)
        (node.cutBefore incoming).log := h.take _
    rw [hcut.termAt_above habove, Option.map_eq_none_iff, List.getElem?_eq_none_iff]
    exact (List.length_take_le _ _)
  have hwhen : Program.when (node.conflicts incoming)
      (Program.update (truncateLogFrom incoming.index)) node =
        ((.ok (), node.cutBefore incoming) : Except Error Unit × RaftNode σ) := by
    cases hheld : node.termAt incoming.index with
    | none =>
      have hbehind := (h.termAt_eq_none habove).mp hheld
      have hconflict : ¬ node.conflicts incoming = true := by simp [conflicts, hheld]
      rw [when_neg hconflict, pure_apply, cutBefore, List.take_of_length_le (by omega)]
    | some held =>
      have hconflict : node.conflicts incoming = true := by
        simp only [conflicts, hheld, decide_eq_true_eq]
        rintro rfl
        exact hterm hheld
      rw [when_pos hconflict, update_apply, h.truncateLogFrom_eq habove]
      rfl
  rw [mergeEntries, read_bind_apply, if_neg (not_not.mpr hplace), if_neg hsnapshot, bind_apply, hwhen]
  dsimp only
  rw [read_bind_apply, if_pos hcutTerm]

/-- **What the loop does with any entries**: nothing, or it cuts the log before the first entry that the node
does not have and appends from there. -/
theorem mergeEntries_apply (h : node.Retains) (hlast : previous + position ≤ node.lastLogIndex)
    (changed : Bool) :
    (unheld node previous position entries = [] ∧
      (¬ InPlace previous position entries ∧
          mergeEntries previous position entries changed node = (.ok none, node) ∨
        InPlace previous position entries ∧
          mergeEntries previous position entries changed node = (.ok (some changed), node))) ∨
    ∃ incoming rest, unheld node previous position entries = incoming :: rest ∧
      ¬ node.Has incoming ∧ incoming :: rest <:+ entries ∧
      incoming.index ≤ node.lastLogIndex + 1 ∧
      mergeEntries previous position entries changed node =
        (do appendEntries (incoming :: rest); return some true : Locked σ (Option Bool))
          (node.cutBefore incoming) := by
  induction entries generalizing position with
  | nil => exact Or.inl ⟨rfl, Or.inr ⟨trivial, rfl⟩⟩
  | cons incoming rest ih =>
    unfold unheld
    by_cases hplace : incoming.index ≠ previous + position + 1
    · rw [if_pos hplace, mergeEntries, read_bind_apply, if_pos hplace]
      exact Or.inl ⟨rfl, Or.inl ⟨fun hplaced => hplace hplaced.1, rfl⟩⟩
    rw [if_neg hplace]
    have hindex := not_not.mp hplace
    by_cases hhas : node.Has incoming
    · -- an entry that is there is passed over
      have hreach : previous + (position + 1) ≤ node.lastLogIndex := by
        have hlength := h.lastLogIndex_eq
        rcases hhas with hcovered | hheld
        · omega
        · by_contra hbehind
          have hnone := (h.termAt_eq_none (i := incoming.index) (by omega)).mpr (by omega)
          rw [hnone] at hheld
          cases hheld
      have hpass : mergeEntries previous position (incoming :: rest) changed node =
          mergeEntries previous (position + 1) rest changed node := by
        rw [mergeEntries, read_bind_apply, if_neg hplace]
        by_cases hcovered : incoming.index ≤ snapshotIndex node.snapshot
        · rw [if_pos hcovered]
        · have hheld := hhas.resolve_left hcovered
          have hconflict : ¬ node.conflicts incoming = true := by simp [conflicts, hheld]
          rw [if_neg hcovered, when_neg hconflict, bind_apply]
          simp only [pure_apply]
          rw [read_bind_apply, if_neg (by rw [hheld]; simp)]
          simp [conflicts, hheld]
      rw [if_pos hhas, hpass]
      rcases ih hreach with hnothing | ⟨e, later, hunheld, hnew, hsuffix, hle, hmerge⟩
      · obtain ⟨hnil, ⟨hbad, hmerge⟩ | ⟨hplaced, hmerge⟩⟩ := hnothing
        · exact Or.inl ⟨hnil, Or.inl ⟨fun hall => hbad hall.2, hmerge⟩⟩
        · exact Or.inl ⟨hnil, Or.inr ⟨⟨hindex, hplaced⟩, hmerge⟩⟩
      · exact Or.inr ⟨e, later, hunheld, hnew, hsuffix.trans (List.suffix_cons _ _), hle, hmerge⟩
    · rw [if_neg hhas]
      exact Or.inr ⟨incoming, rest, rfl, hhas, List.suffix_rfl, by omega,
        mergeEntries_unheld h hindex hlast hhas⟩

/-- The log that the cut and the append leave. -/
def mergedFrom (node : RaftNode σ) (incoming : LogEntry) (rest : List LogEntry) : RaftNode σ :=
  { node with
    log := node.log.take (incoming.index - snapshotIndex node.snapshot - 1) ++
      appendable (incoming.index - 1) (incoming :: rest) }

theorem appendEntries_cut (h : node.Retains) (rest : List LogEntry) (hnew : ¬ node.Has incoming)
    (hle : incoming.index ≤ node.lastLogIndex + 1) :
    (do appendEntries (incoming :: rest); return some true : Locked σ (Option Bool))
        (node.cutBefore incoming) =
      (if appendable (incoming.index - 1) (incoming :: rest) = incoming :: rest then .ok (some true)
        else .error invalidAppend, node.mergedFrom incoming rest) := by
  have habove : snapshotIndex node.snapshot < incoming.index := not_le.mp (not_or.mp hnew).1
  have hlength := h.lastLogIndex_eq
  have hcut : Retained (snapshotIndex (node.cutBefore incoming).snapshot)
      (node.cutBefore incoming).log := h.take _
  have hlast : (node.cutBefore incoming).lastLogIndex = incoming.index - 1 := by
    rw [hcut.lastLogIndex_eq]
    show snapshotIndex node.snapshot +
      (node.log.take (incoming.index - snapshotIndex node.snapshot - 1)).length = _
    rw [List.length_take]
    omega
  rw [bind_apply, appendEntries_apply (incoming :: rest) hcut, hlast]
  split_ifs
  · rfl
  · rfl

theorem Retained.mergedFrom (h : node.Retains) (rest : List LogEntry) (hnew : ¬ node.Has incoming)
    (hle : incoming.index ≤ node.lastLogIndex + 1) :
    Retained (snapshotIndex node.snapshot) (node.mergedFrom incoming rest).log := by
  have habove : snapshotIndex node.snapshot < incoming.index := not_le.mp (not_or.mp hnew).1
  have hlength := h.lastLogIndex_eq
  refine (h.take _).appendable ?_
  rw [List.length_take]
  omega

end Merge

/-! ## Requests -/

section Requests

variable {σ : Type} {node : RaftNode σ} {request : AppendEntriesRequest}

/-- The node has what the request continues. -/
theorem Continues.previous_le (hcontinues : Continues node request) (h : node.Retains) :
    request.previousLogIndex ≤ node.lastLogIndex := by
  by_contra hbehind
  have hnone := (h.termAt_eq_none (i := request.previousLogIndex) (by
    rw [h.lastLogIndex_eq] at hbehind
    omega)).mpr (by omega)
  rw [hcontinues.2.2] at hnone
  cases hnone

/-- A leader only commits what its log holds. -/
theorem CommitPoint.le {index : Nat} (hpoint : node.CommitPoint index) (h : node.Retains)
    : index ≤ node.lastLogIndex := by
  rcases hpoint with rfl | hadvance
  · exact le_rfl
  unfold advanceCommit at hadvance
  split_ifs at hadvance with hbehind hterm
  obtain rfl := Option.some.inj hadvance
  by_contra hover
  have hlast := h.lastLogIndex_eq
  have hnone := (h.termAt_eq_none (i := node.commitCandidate) (by omega)).mpr (by omega)
  rw [hnone] at hterm
  cases hterm

/-- **What becomes of entries that are looked at**: one is out of place, the node has them all, or the log is
cut and filled from the first one on that it does not have. -/
theorem acceptEntries_cases (sm : StateMachine σ) (h : node.Retains)
    (hprevious : request.previousLogIndex ≤ node.lastLogIndex) :
    (unheld node request.previousLogIndex 0 request.entries = [] ∧
      (¬ InPlace request.previousLogIndex 0 request.entries ∧ acceptEntries sm request node =
          (.ok ⟨node.hardState.currentTerm, false, node.lastLogIndex, node.lastLogIndex + 1⟩, node) ∨
        InPlace request.previousLogIndex 0 request.entries ∧
          acceptEntries sm request node = acceptCommit sm request node)) ∨
    ∃ incoming rest, unheld node request.previousLogIndex 0 request.entries = incoming :: rest ∧
      ¬ node.Has incoming ∧ incoming :: rest <:+ request.entries ∧
      incoming.index ≤ node.lastLogIndex + 1 ∧
      acceptEntries sm request node =
        if appendable (incoming.index - 1) (incoming :: rest) = incoming :: rest then
          acceptCommit sm request (node.mergedFrom incoming rest).persistLog
        else (.error invalidAppend, node.mergedFrom incoming rest) := by
  unfold acceptEntries
  rw [bind_apply]
  rcases @mergeEntries_apply _ node request.previousLogIndex 0 request.entries h hprevious false with
    ⟨hnil, ⟨hmisplaced, hmerge⟩ | ⟨hplaced, hmerge⟩⟩ | ⟨incoming, rest, hcons, hnew, hsuffix, hle, hmerge⟩
  · rw [hmerge]
    exact Or.inl ⟨hnil, Or.inl ⟨hmisplaced, rfl⟩⟩
  · rw [hmerge]
    exact Or.inl ⟨hnil, Or.inr ⟨hplaced, rfl⟩⟩
  · refine Or.inr ⟨incoming, rest, hcons, hnew, hsuffix, hle, ?_⟩
    rw [hmerge, appendEntries_cut h rest hnew hle]
    split_ifs <;> rfl

end Requests

end NebulaKV.Raft.RaftNode
