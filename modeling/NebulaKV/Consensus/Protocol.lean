/-
# A leader-based replicated log, abstractly

The protocol over arbitrary types: nodes `N`, entries `E` that carry the term they were created in.
Every node has one LOGICAL log (nothing is ever compacted here), a term and its votes; the rest of
the state is history that only grows: who stood with which log, who was elected, the log each leader
has built in its term, how far each node has acknowledged each leader, and what was committed.

There are no messages. A message of an implementation is a statement about the history ("the leader
of term `t` holds these entries", "this node voted for `c` in `t`"), and as the history only grows
such a statement stays true however long it is delayed, duplicated or reordered. `Extends` is the
growth order; everything an implementation needs to know about messages in flight is monotone in it.

`Step Q n` is what node `n` may do in one step; `Touches n` says what such a step leaves alone.
-/
import NebulaKV.Consensus.Quorum
import Mathlib.Logic.Function.Basic
import Mathlib.Logic.Relation
import Mathlib.Tactic.Simps.Basic

namespace Consensus

/-- Entries know the term of the leader that created them. -/
class Termed (E : Type*) where
  term : E → Nat

export Termed (term)

/-- The protocol's state. `term`, `log` and `vote` are what a node holds; the other fields are the
history of the whole system. -/
structure State (N E : Type*) where
  term : N → Nat
  log : N → List E
  /-- The vote a node has cast in a term. -/
  vote : N → Nat → Option N
  /-- The log a candidate stood with in a term. -/
  stood : Nat → N → Option (List E)
  /-- The leader of a term, with the log it was elected with. -/
  chosen : Nat → Option (N × List E)
  /-- The log the leader of a term has built so far. -/
  leaderLog : Nat → List E
  /-- How much of the term's leader log a node has acknowledged in that term. -/
  ack : N → Nat → Nat
  /-- The leader of the term has committed its log up to the index. -/
  committed : Nat → Nat → Prop

variable {N E : Type*} [DecidableEq N] [Termed E]

/-- The term of a log's last entry; zero for the empty log. -/
def lastTerm (L : List E) : Nat := (L.getLast?.map term).getD 0

/-- The voting rule: the candidate's log is at least as up to date as the voter's. -/
def UpToDate (candidate voter : List E) : Prop :=
  lastTerm voter < lastTerm candidate ∨
    lastTerm voter = lastTerm candidate ∧ voter.length ≤ candidate.length

/-- What a node makes of the prefix `P` of a leader's log: it keeps a log that already starts with
`P`, and otherwise takes `P` itself. -/
def Adopts (P old new : List E) : Prop :=
  P <+: old ∧ new = old ∨ ¬ P <+: old ∧ new = P

namespace State

/-- Nothing has happened yet. -/
@[simps] def initial : State N E where
  term _ := 0
  log _ := []
  vote _ _ := none
  stood _ _ := none
  chosen _ := none
  leaderLog _ := []
  ack _ _ := 0
  committed _ _ := False

@[simps] def setTerm (s : State N E) (n : N) (t : Nat) : State N E :=
  { s with term := Function.update s.term n t }

@[simps] def castVote (s : State N E) (n : N) (t : Nat) (c : N) : State N E :=
  { s with vote := Function.update s.vote n (Function.update (s.vote n) t (some c)) }

/-- Stand in the next term, with the node's own vote and its current log. -/
@[simps] def stand (s : State N E) (n : N) : State N E :=
  { (s.setTerm n (s.term n + 1)).castVote n (s.term n + 1) n with
    stood := Function.update s.stood (s.term n + 1)
      (Function.update (s.stood (s.term n + 1)) n (some (s.log n))) }

/-- Add one entry to the log the leader `n` builds in its term. -/
@[simps] def extend (s : State N E) (n : N) (e : E) : State N E :=
  { s with
    log := Function.update s.log n (s.log n ++ [e])
    leaderLog := Function.update s.leaderLog (s.term n) (s.log n ++ [e]) }

/-- Become the leader of the current term, and open it with the entry `e`. -/
@[simps] def crown (s : State N E) (n : N) (e : E) : State N E :=
  { s.extend n e with chosen := Function.update s.chosen (s.term n) (some (n, s.log n)) }

/-- Take `new` for the log, and acknowledge the leader of the current term up to `k`. -/
@[simps] def adopt (s : State N E) (n : N) (k : Nat) (new : List E) : State N E :=
  { s with
    log := Function.update s.log n new
    ack := Function.update s.ack n
      (Function.update (s.ack n) (s.term n) (max (s.ack n (s.term n)) k)) }

@[simps] def commit (s : State N E) (t c : Nat) : State N E :=
  { s with committed := fun t' c' => s.committed t' c' ∨ t' = t ∧ c' = c }

end State

/-- One step of node `n`. -/
inductive Step (Q : QuorumSystem N) (n : N) : State N E → State N E → Prop
  /-- Learn of a later term. -/
  | advance {s : State N E} {t : Nat} : s.term n ≤ t → Step Q n s (s.setTerm n t)
  | stand {s : State N E} : Step Q n s (s.stand n)
  /-- Vote, once in a term, for a candidate whose log is up to date. -/
  | grant {s : State N E} {c : N} {L : List E} :
      s.vote n (s.term n) = none ∨ s.vote n (s.term n) = some c →
      s.stood (s.term n) c = some L → UpToDate L (s.log n) →
      Step Q n s (s.castVote n (s.term n) c)
  /-- Win the term with a quorum of votes, still holding the log stood with. -/
  | elect {s : State N E} {e : E} :
      s.stood (s.term n) n = some (s.log n) → (∀ L, s.chosen (s.term n) ≠ some (n, L)) →
      Q.IsQuorum {p | s.vote p (s.term n) = some n} → term e = s.term n →
      Step Q n s (s.crown n e)
  | append {s : State N E} {e : E} {L : List E} :
      s.chosen (s.term n) = some (n, L) → s.leaderLog (s.term n) = s.log n →
      term e = s.term n → Step Q n s (s.extend n e)
  /-- Adopt a prefix of the current leader's log. -/
  | accept {s : State N E} {k : Nat} {new : List E} {x : N × List E} :
      s.chosen (s.term n) = some x → k ≤ (s.leaderLog (s.term n)).length →
      Adopts ((s.leaderLog (s.term n)).take k) (s.log n) new →
      Step Q n s (s.adopt n k new)
  /-- Commit an index that a quorum has acknowledged, if its entry is of the current term. -/
  | commit {s : State N E} {c : Nat} {L : List E} {e : E} :
      s.chosen (s.term n) = some (n, L) → Q.IsQuorum {p | c ≤ s.ack p (s.term n)} →
      (s.leaderLog (s.term n))[c - 1]? = some e → 0 < c → term e = s.term n →
      Step Q n s (s.commit (s.term n) c)

omit [DecidableEq N] [Termed E]

/-- The history of `s'` continues the history of `s`. -/
structure Extends (s s' : State N E) : Prop where
  term : ∀ p, s.term p ≤ s'.term p
  vote : ∀ {p t c}, s.vote p t = some c → s'.vote p t = some c
  stood : ∀ {t c L}, s.stood t c = some L → s'.stood t c = some L
  chosen : ∀ {t x}, s.chosen t = some x → s'.chosen t = some x
  leaderLog : ∀ t, s.leaderLog t <+: s'.leaderLog t
  ack : ∀ p t, s.ack p t ≤ s'.ack p t
  committed : ∀ {t c}, s.committed t c → s'.committed t c

theorem Extends.refl (s : State N E) : Extends s s where
  term _ := le_rfl
  vote h := h
  stood h := h
  chosen h := h
  leaderLog _ := List.prefix_rfl
  ack _ _ := le_rfl
  committed h := h

theorem Extends.trans {s₁ s₂ s₃ : State N E} (h : Extends s₁ s₂) (h' : Extends s₂ s₃) :
    Extends s₁ s₃ where
  term p := (h.term p).trans (h'.term p)
  vote hv := h'.vote (h.vote hv)
  stood hs := h'.stood (h.stood hs)
  chosen hc := h'.chosen (h.chosen hc)
  leaderLog t := (h.leaderLog t).trans (h'.leaderLog t)
  ack p t := (h.ack p t).trans (h'.ack p t)
  committed hc := h'.committed (h.committed hc)

/-- What a step of node `n` leaves alone: the other nodes' terms, logs, votes and acknowledgements,
and every part of the history that belongs to a term led by another node. -/
structure Touches (n : N) (s s' : State N E) : Prop extends Extends s s' where
  termOf : ∀ {m}, m ≠ n → s'.term m = s.term m
  logOf : ∀ {m}, m ≠ n → s'.log m = s.log m
  voteOf : ∀ {m}, m ≠ n → s'.vote m = s.vote m
  ackOf : ∀ {m}, m ≠ n → s'.ack m = s.ack m
  chosenOf : ∀ {m t L}, m ≠ n → s'.chosen t = some (m, L) → s.chosen t = some (m, L)
  leaderLogOf : ∀ {m t L}, m ≠ n → s.chosen t = some (m, L) → s'.leaderLog t = s.leaderLog t
  committedOf : ∀ {m t c L}, m ≠ n → s.chosen t = some (m, L) → s'.committed t c → s.committed t c

theorem Touches.refl (n : N) (s : State N E) : Touches n s s where
  toExtends := Extends.refl s
  termOf _ := rfl
  logOf _ := rfl
  voteOf _ := rfl
  ackOf _ := rfl
  chosenOf _ h := h
  leaderLogOf _ _ := rfl
  committedOf _ _ h := h

theorem Touches.trans {n : N} {s₁ s₂ s₃ : State N E} (h : Touches n s₁ s₂)
    (h' : Touches n s₂ s₃) : Touches n s₁ s₃ where
  toExtends := h.toExtends.trans h'.toExtends
  termOf hm := (h'.termOf hm).trans (h.termOf hm)
  logOf hm := (h'.logOf hm).trans (h.logOf hm)
  voteOf hm := (h'.voteOf hm).trans (h.voteOf hm)
  ackOf hm := (h'.ackOf hm).trans (h.ackOf hm)
  chosenOf hm hc := h.chosenOf hm (h'.chosenOf hm hc)
  leaderLogOf hm hc := (h'.leaderLogOf hm (h.chosen hc)).trans (h.leaderLogOf hm hc)
  committedOf hm hc hd := h.committedOf hm hc (h'.committedOf hm (h.chosen hc) hd)

end Consensus
