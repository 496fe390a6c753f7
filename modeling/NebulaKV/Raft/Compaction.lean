/-
# The retained log and the whole log

A node keeps a snapshot and the entries behind it. The protocol is about WHOLE logs: the list of all
entries since the first, of which the snapshot stands for a front part. `Compacted L log snapshot` says
that `log` and `snapshot` are what is kept of the whole log `L`. Under it, what the code computes from
the retained log (last index, last term, the term at an index, a batch to send) is what the whole log
says, and the three operations that change a log (trimming behind a snapshot, truncating, appending) are
operations on the whole log.
-/
import NebulaKV.Consensus.Completeness
import NebulaKV.Raft.RetainedLog

namespace NebulaKV.Raft

open Consensus Effects Program RaftNode

instance : Termed LogEntry := ⟨LogEntry.term⟩

@[simp] theorem term_logEntry (e : LogEntry) : term e = e.term := rfl

/-- A whole log: entries carry their position and a term, and commands the state machine accepts. -/
def Indexed (L : List LogEntry) : Prop :=
  ∀ i e, L[i]? = some e → e.index = i + 1 ∧ 0 < e.term ∧ e.command.Valid

variable {L : List LogEntry}

theorem Indexed.of_part {L' : List LogEntry} (h : Indexed L) (hp : L' <+: L) : Indexed L' := by
  intro i e he
  have hi : i < L'.length := (List.getElem?_eq_some_iff.mp he).1
  obtain ⟨C, rfl⟩ := hp
  exact h i e (by rw [List.getElem?_append_left hi]; exact he)

variable {log : List LogEntry} {snapshot : Option Snapshot} {e : LogEntry}

theorem Indexed.concat (h : Indexed L) (hindex : e.index = L.length + 1) (hterm : 0 < e.term)
    (hvalid : e.command.Valid) : Indexed (L ++ [e]) := by
  intro i e' he
  rcases Nat.lt_or_ge i L.length with hi | hi
  · rw [List.getElem?_append_left hi] at he
    exact h i e' he
  · rw [List.getElem?_append_right hi] at he
    obtain ⟨hi', rfl⟩ : i - L.length = 0 ∧ e = e' := by
      cases hz : i - L.length with
      | zero => simpa [hz] using he
      | succ m => simp [hz] at he
    exact ⟨by omega, hterm, hvalid⟩

theorem Indexed.drop (h : Indexed L) (k : Nat) : Retained k (L.drop k) := by
  intro i e he
  rw [List.getElem?_drop] at he
  obtain ⟨hindex, hterm, -⟩ := h _ e he
  exact ⟨hindex, hterm.ne'⟩

/-- What is kept of the whole log `L`. -/
structure Compacted (L : List LogEntry) (log : List LogEntry) (snapshot : Option Snapshot) :
    Prop where
  le : snapshotIndex snapshot ≤ L.length
  log_eq : log = L.drop (snapshotIndex snapshot)
  snapshot_eq : ∀ s, snapshot = some s → 0 < s.lastIncludedIndex ∧
    (L[s.lastIncludedIndex - 1]?).map LogEntry.term = some s.lastIncludedTerm ∧
    s.payload.length ≤ uint32Max

/-- The term of the entry before a position: zero at the front. -/
def termBefore (L : List LogEntry) (i : Nat) : Option Nat :=
  if i = 0 then some 0 else (L[i - 1]?).map LogEntry.term

theorem termBefore_snapshot {s : Snapshot} (h : Compacted L log (some s)) :
    termBefore L s.lastIncludedIndex = some s.lastIncludedTerm := by
  obtain ⟨hpos, hterm, _⟩ := h.snapshot_eq s rfl
  rw [termBefore, if_neg (by omega), hterm]

/-- The entry at a position is kept, or the snapshot covers it. -/
theorem Compacted.mem_or_covered (h : Compacted L log snapshot) {i : Nat} (he : L[i]? = some e) :
    i + 1 ≤ snapshotIndex snapshot ∨ e ∈ log := by
  rcases Nat.lt_or_ge i (snapshotIndex snapshot) with hi | hi
  · exact Or.inl hi
  · refine Or.inr ?_
    rw [h.log_eq]
    refine List.mem_iff_getElem?.mpr ⟨i - snapshotIndex snapshot, ?_⟩
    rw [List.getElem?_drop, show snapshotIndex snapshot + (i - snapshotIndex snapshot) = i by omega]
    exact he

theorem Compacted.of_mem (h : Compacted L log snapshot) (hL : Indexed L) (he : e ∈ log) :
    0 < e.index ∧ L[e.index - 1]? = some e ∧ snapshotIndex snapshot < e.index := by
  rw [h.log_eq] at he
  obtain ⟨i, hi⟩ := List.mem_iff_getElem?.mp he
  rw [List.getElem?_drop] at hi
  have hindex := (hL _ e hi).1
  refine ⟨by omega, ?_, by omega⟩
  rw [show e.index - 1 = snapshotIndex snapshot + i by omega]
  exact hi

theorem Compacted.retained (h : Compacted L log snapshot) (hL : Indexed L) :
    Retained (snapshotIndex snapshot) log := by
  rw [h.log_eq]
  exact hL.drop _

/-- Trimming the log behind an index. -/
theorem eraseThrough_drop (hL : Indexed L) {k x : Nat} (hk : k ≤ x) :
    eraseThrough x (L.drop k) = L.drop x := by
  rw [eraseThrough_eq (hL.drop k) hk, List.drop_drop, Nat.add_sub_cancel' hk]

/-- A snapshot further on, with the log trimmed behind it. -/
theorem Compacted.advance (h : Compacted L log snapshot) (hL : Indexed L) {s : Snapshot}
    (hle : snapshotIndex snapshot ≤ s.lastIncludedIndex) (hlen : s.lastIncludedIndex ≤ L.length)
    (hpos : 0 < s.lastIncludedIndex)
    (hterm : (L[s.lastIncludedIndex - 1]?).map LogEntry.term = some s.lastIncludedTerm)
    (hfits : s.payload.length ≤ uint32Max) :
    Compacted L (RaftNode.eraseThrough s.lastIncludedIndex log) (some s) where
  le := hlen
  log_eq := by
    rw [h.log_eq]
    exact eraseThrough_drop hL hle
  snapshot_eq := by
    intro s' hs'
    obtain rfl := Option.some.inj hs'
    exact ⟨hpos, hterm, hfits⟩

/-! ## What a node computes from its retained log -/

section Node

variable {σ : Type} {node : RaftNode σ} {L : List LogEntry}

theorem lastLogIndex_eq (h : Compacted L node.log node.snapshot) (hL : Indexed L) :
    node.lastLogIndex = L.length := by
  rw [(h.retained hL).lastLogIndex_eq, h.log_eq, List.length_drop, Nat.add_sub_cancel' h.le]

theorem lastLogTerm_eq (h : Compacted L node.log node.snapshot) :
    node.lastLogTerm = lastTerm L := by
  unfold RaftNode.lastLogTerm
  have hle := h.le
  rw [h.log_eq, List.getLast?_drop]
  by_cases hk : L.length ≤ snapshotIndex node.snapshot
  · rw [if_pos hk]
    cases hs : node.snapshot with
    | none =>
      have hnil : L = [] := List.length_eq_zero_iff.mp (by simpa [hs] using hk)
      simp [hnil, lastTerm]
    | some s =>
      obtain ⟨hpos, hterm, _⟩ := h.snapshot_eq s hs
      rw [hs] at hk hle
      simp only [snapshotIndex_some] at hk hle
      rw [show s.lastIncludedIndex = L.length by omega] at hterm
      show s.lastIncludedTerm = lastTerm L
      unfold lastTerm
      rw [List.getLast?_eq_getElem?, show term (E := LogEntry) = LogEntry.term from rfl, hterm]
      rfl
  · rw [if_neg hk]
    unfold lastTerm
    have hlast : L[L.length - 1]? = some L[L.length - 1] := by simp
    rw [List.getLast?_eq_getElem?, hlast]
    rfl

theorem termAt_eq (h : Compacted L node.log node.snapshot) (hL : Indexed L) {i : Nat}
    (hi : snapshotIndex node.snapshot ≤ i) : node.termAt i = termBefore L i := by
  rcases Nat.eq_or_lt_of_le hi with rfl | hlt
  · cases hs : node.snapshot with
    | none => rfl
    | some s =>
      rw [hs] at h
      obtain ⟨hpos, -⟩ := h.snapshot_eq s rfl
      rw [snapshotIndex_some, termBefore_snapshot h, RaftNode.termAt, if_neg (by omega), hs]
      exact if_pos rfl
  · rw [(h.retained hL).termAt_above hlt, termBefore, if_neg (by omega), h.log_eq, List.getElem?_drop]
    congr 2
    omega

theorem termBefore_isSome {i : Nat} {t : Nat} (h : termBefore L i = some t) : i ≤ L.length := by
  unfold termBefore at h
  split_ifs at h with hz
  · omega
  · by_contra hgt
    rw [List.getElem?_eq_none (by omega)] at h
    cases h

theorem entriesFrom_eq (h : Compacted L node.log node.snapshot) (hL : Indexed L) {next : Nat}
    (hnext : snapshotIndex node.snapshot < next) :
    node.entriesFrom next = (L.drop (next - 1)).take node.options.maxAppendEntries := by
  rw [(h.retained hL).entriesFrom_eq hnext, h.log_eq, List.drop_drop]
  congr 2
  omega

end Node

section Append

variable {σ : Type}

theorem Compacted.concat {L : List LogEntry} (h : Compacted L log snapshot) (e : LogEntry) :
    Compacted (L ++ [e]) (log ++ [e]) snapshot where
  le := by
    have := h.le
    simp only [List.length_append, List.length_singleton]
    omega
  log_eq := by rw [h.log_eq, List.drop_append_of_le_length h.le]
  snapshot_eq s hs := by
    obtain ⟨hpos, hterm, hfits⟩ := h.snapshot_eq s hs
    have hle : s.lastIncludedIndex ≤ L.length := by simpa [hs] using h.le
    exact ⟨hpos, by rw [List.getElem?_append_left (by omega)]; exact hterm, hfits⟩

/-! ## Merging -/

section Merging

variable {node : RaftNode σ} {L A : List LogEntry} {previous : Nat} {entries : List LogEntry}
variable (h : Compacted L node.log node.snapshot) (hL : Indexed L) (hA : Indexed A)
  (hk : snapshotIndex node.snapshot ≤ previous) (hlen : previous ≤ L.length)
  (hentries : A = L.take previous ++ entries)

include hlen hentries in
theorem getElem?_of_sent {i : Nat} {e : LogEntry} (he : entries[i]? = some e) :
    A[previous + i]? = some e := by
  have htake : (L.take previous).length = previous := List.length_take_of_le hlen
  rw [hentries, List.getElem?_append_right (by omega), htake, Nat.add_sub_cancel_left]
  exact he

include hA hlen hentries in
theorem retained_of_sent : Retained previous entries := by
  have hdrop := hA.drop previous
  rwa [hentries, List.drop_left' (List.length_take_of_le hlen)] at hdrop

include h hL hk in
theorem termAt_of_place {i : Nat} {e : LogEntry} (hindex : e.index = previous + i + 1) :
    node.termAt e.index = (L[previous + i]?).map LogEntry.term := by
  rw [termAt_eq h hL (by omega), termBefore, if_neg (by omega), hindex, Nat.add_sub_cancel]

include h hL hA hk hlen hentries

/-- As long as the node has the entries, the two logs are the same. -/
theorem take_eq_of_has (hmatching : ∀ i e e', L[i]? = some e → A[i]? = some e' → e.term = e'.term →
      L.take (i + 1) = A.take (i + 1)) {front rest : List LogEntry} (hfront : entries = front ++ rest)
    (hhas : ∀ e ∈ front, node.Has e) :
    L.take (previous + front.length) = A.take (previous + front.length) := by
  rcases List.eq_nil_or_concat front with rfl | ⟨init, last, rfl⟩
  · rw [hentries, List.length_nil, Nat.add_zero, List.take_left' (List.length_take_of_le hlen)]
  · -- matching terms at the last of them
    have hlast : entries[init.length]? = some last := by
      rw [hfront, List.concat_append, List.getElem?_append_right le_rfl, Nat.sub_self]
      rfl
    have hindex := (retained_of_sent hA hlen hentries _ last hlast).1
    have hheld := (hhas last (by simp)).resolve_left (by omega)
    rw [termAt_of_place h hL hk hindex] at hheld
    obtain ⟨held, hLi, heq⟩ := Option.map_eq_some_iff.mp hheld
    have hsame := hmatching _ held last hLi (getElem?_of_sent hlen hentries hlast) heq
    rwa [List.length_concat, ← Nat.add_assoc]

/-- **The merge loop** on a log that agrees with the sender's up to `previous`: a log that starts with the
sender's stays, and otherwise the sender's takes its place. -/
theorem mergeEntries_eq (hmatching : ∀ i e e', L[i]? = some e → A[i]? = some e' → e.term = e'.term →
      L.take (i + 1) = A.take (i + 1)) (changed : Bool) :
    mergeEntries previous 0 entries changed node =
      if A <+: L then (.ok (some changed), node)
      else (.ok (some true), { node with log := A.drop (snapshotIndex node.snapshot) }) := by
  have hretained := h.retained hL
  have hplaced := retained_of_sent hA hlen hentries
  have htake : (L.take previous).length = previous := List.length_take_of_le hlen
  have hinPlace : InPlace previous 0 entries := @Retained.inPlace previous 0 entries hplaced
  obtain ⟨front, hfront, hhas⟩ := hinPlace.unheld_split node
  have hcommon := take_eq_of_has h hL hA hk hlen hentries hmatching hfront hhas
  rcases @mergeEntries_apply _ node previous 0 entries hretained
      (by rw [lastLogIndex_eq h hL]; exact hlen) changed with
    ⟨hnil, ⟨hbad, -⟩ | ⟨-, hmerge⟩⟩ | ⟨incoming, rest, hcons, hnew, -, hle, hmerge⟩
  · exact absurd hinPlace hbad
  · have hall : A.length ≤ previous + front.length := by
      rw [hnil, List.append_nil] at hfront
      rw [hentries, List.length_append, htake, hfront]
    rw [List.take_of_length_le hall] at hcommon
    rw [hmerge, if_pos (hcommon ▸ List.take_prefix _ _)]
  · rw [hcons] at hfront
    have hincoming : entries[front.length]? = some incoming := by
      rw [hfront, List.getElem?_append_right le_rfl, Nat.sub_self]
      rfl
    have hindex := (hplaced _ incoming hincoming).1
    have hbehind : Retained (incoming.index - 1) (incoming :: rest) := by
      have hdrop := hplaced.drop front.length
      rw [hfront, List.drop_left] at hdrop
      rwa [show incoming.index - 1 = previous + front.length by omega]
    have hnot : ¬ A <+: L := by
      rintro ⟨C, hC⟩
      refine hnew (Or.inr ?_)
      have hsent := getElem?_of_sent hlen hentries hincoming
      have hlt := (List.getElem?_eq_some_iff.mp hsent).1
      rw [termAt_of_place h hL hk hindex, ← hC, List.getElem?_append_left hlt, hsent]
      rfl
    have hsplit : A = L.take (previous + front.length) ++ incoming :: rest := by
      have hlength : (L.take previous ++ front).length = previous + front.length := by
        rw [List.length_append, htake]
      rw [hcommon, hentries, hfront, ← List.append_assoc, List.take_left' hlength]
    have hreach : snapshotIndex node.snapshot ≤ (L.take (previous + front.length)).length := by
      have hlast := lastLogIndex_eq h hL
      rw [List.length_take]
      omega
    rw [hmerge, appendEntries_cut hretained rest hnew hle, if_pos hbehind.appendable_eq, if_neg hnot]
    unfold mergedFrom
    rw [hbehind.appendable_eq, hsplit, List.drop_append_of_le_length hreach, List.drop_take, h.log_eq,
      show incoming.index - snapshotIndex node.snapshot - 1 =
        previous + front.length - snapshotIndex node.snapshot by omega]

end Merging

end Append

end NebulaKV.Raft
