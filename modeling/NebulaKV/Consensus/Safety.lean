/-
# Safety of the abstract protocol

`Inv` is the inductive invariant. Three of its parts carry the argument:

* every log is `Rooted`: each entry sits on exactly the prefix its own leader built below it, so an
  index and a term determine everything up to that index (log matching);
* what a node has acknowledged it KEEPS, unless a later leader was elected without it;
* a vote cast before the term's election is `Backed`: whatever the voter had acknowledged before was
  either in a log the candidate's log dominates, or had been superseded by an earlier leader.

The first two are about one node, the third is what quorums transport. `leader_completeness` is the
induction over terms that puts them together. The invariant says nothing about commits beyond the
quorum behind them: it holds whether or not anything is ever committed.
-/
import NebulaKV.Consensus.Protocol

namespace Consensus

variable {N E : Type*}
variable {A L : List E} {k : Nat}

theorem take_eq_of_part {B : List E} (h : A <+: B) (hk : k ≤ A.length) : B.take k = A.take k := by
  obtain ⟨C, rfl⟩ := h
  rw [List.take_append_of_le_length hk]

theorem take_prefix_take {j : Nat} (h : j ≤ k) : A.take j <+: A.take k := by
  rw [List.prefix_take_iff]
  exact ⟨List.take_prefix j A, by simp; omega⟩

/-- Adopting a prefix of a leader's log never loses another prefix of that log. -/
theorem Adopts.keeps {P old new B : List E} (h : Adopts P old new) (hP : P <+: A) (hB : B <+: A)
    (hold : B <+: old) : B <+: new := by
  rcases h with ⟨_, rfl⟩ | ⟨hne, rfl⟩
  · exact hold
  · rcases List.prefix_or_prefix_of_prefix hB hP with h | h
    · exact h
    · exact absurd (h.trans hold) hne

theorem Adopts.has {P old new : List E} (h : Adopts P old new) : P <+: new := by
  rcases h with ⟨h, rfl⟩ | ⟨_, rfl⟩
  · exact h
  · exact List.prefix_rfl

variable [Termed E]

/-- Every entry of `L` sits where the leader of its term put it, on that leader's own log. -/
def Rooted (s : State N E) (L : List E) : Prop :=
  ∀ i e, L[i]? = some e →
    (∃ x, s.chosen (term e) = some x) ∧ L.take (i + 1) <+: s.leaderLog (term e)

theorem Rooted.nil (s : State N E) : Rooted s [] := by
  intro i e h
  simp at h

theorem Rooted.mono {s s' : State N E} (h : Rooted s L) (hs : Extends s s') : Rooted s' L := by
  intro i e he
  obtain ⟨⟨x, hx⟩, hp⟩ := h i e he
  exact ⟨⟨x, hs.chosen hx⟩, hp.trans (hs.leaderLog _)⟩

theorem Rooted.of_part {s : State N E} {L' : List E} (h : Rooted s L) (hL : L' <+: L) :
    Rooted s L' := by
  intro i e he
  have hi : i < L'.length := by
    by_contra hlt
    rw [List.getElem?_eq_none (by omega)] at he
    cases he
  obtain ⟨C, rfl⟩ := hL
  rw [← take_eq_of_part (List.prefix_append L' C) (by omega)]
  exact h i e (by rw [List.getElem?_append_left hi]; exact he)

/-- **Log matching.** Two rooted logs that agree on the term at one position agree up to it. -/
theorem Rooted.matching {s : State N E} {L' : List E} (h : Rooted s L) (h' : Rooted s L') {i : Nat}
    {e e' : E} (he : L[i]? = some e) (he' : L'[i]? = some e') (ht : term e = term e') :
    L.take (i + 1) = L'.take (i + 1) := by
  have hp := (h i e he).2
  have hp' := (h' i e' he').2
  rw [← ht] at hp'
  have hlen : (L.take (i + 1)).length = (L'.take (i + 1)).length := by
    have hi := (List.getElem?_eq_some_iff.mp he).1
    have hi' := (List.getElem?_eq_some_iff.mp he').1
    simp only [List.length_take]
    omega
  exact (List.prefix_of_prefix_length_le hp hp' hlen.le).eq_of_length hlen

/-- Some leader of a term between `T` and `u` was elected without the first `k` entries of the log
of `T`'s leader. -/
def Superseded (s : State N E) (T k u : Nat) : Prop :=
  ∃ t x L, T < t ∧ t < u ∧ s.chosen t = some (x, L) ∧ ¬ (s.leaderLog T).take k <+: L

omit [Termed E] in
theorem Superseded.mono {s s' : State N E} {T u u' : Nat} (h : Superseded s T k u)
    (hs : Extends s s') (hu : u ≤ u') (hk : k ≤ (s.leaderLog T).length) : Superseded s' T k u' := by
  obtain ⟨t, x, L, hT, ht, hc, hL⟩ := h
  refine ⟨t, x, L, hT, by omega, hs.chosen hc, ?_⟩
  rwa [take_eq_of_part (hs.leaderLog T) hk]

/-- What the vote of `p` in term `t` for a candidate with log `L` guarantees about everything `p`
had acknowledged in earlier terms. -/
def Backed (s : State N E) (p : N) (t : Nat) (L : List E) : Prop :=
  ∀ T k, T < t → k ≤ s.ack p T →
    (∃ V, Rooted s V ∧ (s.leaderLog T).take k <+: V ∧ UpToDate L V) ∨ Superseded s T k t

/-- The inductive invariant. -/
structure Inv (Q : QuorumSystem N) (s : State N E) : Prop where
  vote_le : ∀ {p t c}, s.vote p t = some c → t ≤ s.term p
  stood_le : ∀ {t c L}, s.stood t c = some L → 0 < t ∧ t ≤ s.term c
  stood_rooted : ∀ {t c L}, s.stood t c = some L → Rooted s L
  stood_lt : ∀ {t c L}, s.stood t c = some L → ∀ e ∈ L, term e < t
  chosen_stood : ∀ {t c L}, s.chosen t = some (c, L) → s.stood t c = some L
  /-- A leader's log is the log it was elected with, then entries of its own term. -/
  chosen_log : ∀ {t c L}, s.chosen t = some (c, L) →
    ∃ new, s.leaderLog t = L ++ new ∧ new ≠ [] ∧ ∀ e ∈ new, term e = t
  unchosen : ∀ {t}, s.chosen t = none → s.leaderLog t = []
  elected_by : ∀ {t c L}, s.chosen t = some (c, L) →
    Q.IsQuorum {p | s.vote p t = some c ∧ Backed s p t L}
  vote_backed : ∀ {p t c}, s.vote p t = some c → s.chosen t = none →
    ∃ L, s.stood t c = some L ∧ Backed s p t L
  log_rooted : ∀ p, Rooted s (s.log p)
  log_le : ∀ p, ∀ e ∈ s.log p, term e ≤ s.term p
  ack_le : ∀ {p t}, 0 < s.ack p t → t ≤ s.term p
  ack_length : ∀ p t, s.ack p t ≤ (s.leaderLog t).length
  /-- An acknowledged prefix stays in the log until a later leader lacks it. -/
  ack_kept : ∀ {p T k}, k ≤ s.ack p T →
    (s.leaderLog T).take k <+: s.log p ∨ Superseded s T k (s.term p + 1)
  committed_by : ∀ {t c}, s.committed t c →
    0 < c ∧ (∃ e, (s.leaderLog t)[c - 1]? = some e ∧ term e = t) ∧
      Q.IsQuorum {p | c ≤ s.ack p t}

theorem inv_initial (Q : QuorumSystem N) : Inv Q (State.initial : State N E) where
  vote_le h := by simp at h
  stood_le h := by simp at h
  stood_rooted h := by simp at h
  stood_lt h := by simp at h
  chosen_stood h := by simp at h
  chosen_log h := by simp at h
  unchosen _ := rfl
  elected_by h := by simp at h
  vote_backed h := by simp at h
  log_rooted _ := Rooted.nil _
  log_le _ e he := by simp at he
  ack_le h := by simp at h
  ack_length _ _ := by simp
  ack_kept {p T k} _ := by simp
  committed_by h := by simp at h

namespace Inv

variable {Q : QuorumSystem N} {s s' : State N E}
variable {t T : Nat} {L : List E} {c n p : N} {e : E} {x : N × List E}

theorem chosen_lt (h : Inv Q s) (hc : s.chosen t = some (c, L)) : ∀ e ∈ L, term e < t :=
  h.stood_lt (h.chosen_stood hc)

theorem chosen_prefix (h : Inv Q s) (hc : s.chosen t = some (c, L)) : L <+: s.leaderLog t := by
  obtain ⟨new, hnew, _⟩ := h.chosen_log hc
  rw [hnew]
  exact List.prefix_append L new

theorem chosen_of_mem (h : Inv Q s) (he : e ∈ s.leaderLog t) : ∃ x, s.chosen t = some x := by
  cases hc : s.chosen t with
  | none =>
    rw [h.unchosen hc] at he
    cases he
  | some x => exact ⟨x, rfl⟩

theorem leaderLog_le (h : Inv Q s) (he : e ∈ s.leaderLog t) : term e ≤ t := by
  obtain ⟨⟨c, L⟩, hc⟩ := h.chosen_of_mem he
  obtain ⟨new, hnew, _, hterm⟩ := h.chosen_log hc
  rw [hnew, List.mem_append] at he
  rcases he with he | he
  · exact (h.chosen_lt hc e he).le
  · exact (hterm e he).le

theorem leaderLog_rooted (h : Inv Q s) (t : Nat) : Rooted s (s.leaderLog t) := by
  intro i e he
  obtain ⟨⟨c, L⟩, hc⟩ := h.chosen_of_mem (List.mem_of_getElem? he)
  obtain ⟨new, hnew, _, hterm⟩ := h.chosen_log hc
  by_cases hi : i < L.length
  · -- an entry the leader was elected with
    have heL : L[i]? = some e := by
      rw [hnew, List.getElem?_append_left hi] at he
      exact he
    rw [take_eq_of_part (h.chosen_prefix hc) (by omega)]
    exact h.stood_rooted (h.chosen_stood hc) i e heL
  · -- an entry of its own term
    have het : term e = t := by
      rw [hnew, List.getElem?_append_right (by omega)] at he
      exact hterm e (List.mem_of_getElem? he)
    rw [het]
    exact ⟨⟨_, hc⟩, List.take_prefix _ _⟩

/-- Before an election the term has no leader: another winner's voters would have met this one's. -/
theorem chosen_none (h : Inv Q s) (hne : ∀ L, s.chosen t ≠ some (n, L))
    (hq : Q.IsQuorum {p | s.vote p t = some n}) : s.chosen t = none := by
  cases hc : s.chosen t with
  | none => rfl
  | some x =>
    obtain ⟨m, L⟩ := x
    obtain ⟨p, hp, hp', _⟩ := Q.meet hq (h.elected_by hc)
    have hmn : m = n := by
      have hp : s.vote p t = some n := hp
      rw [hp'] at hp
      exact Option.some.inj hp
    subst hmn
    exact absurd hc (hne L)

theorem backed_mono (h : Inv Q s) (hs : Extends s s') (hb : Backed s p t L)
    (hack : ∀ T < t, s'.ack p T = s.ack p T) : Backed s' p t L := by
  intro T k hT hk
  rw [hack T hT] at hk
  have hlen := hk.trans (h.ack_length p T)
  rcases hb T k hT hk with ⟨V, hV, hpre, hup⟩ | hsup
  · refine Or.inl ⟨V, hV.mono hs, ?_, hup⟩
    rwa [take_eq_of_part (hs.leaderLog T) hlen]
  · exact Or.inr (hsup.mono hs le_rfl hlen)

/-- What the voter's own log guarantees when it votes in its current term, as long as the term has
no leader yet. -/
theorem backed_of_upToDate (h : Inv Q s) (hup : UpToDate L (s.log p)) (ht : s.term p ≤ t)
    (hc : s.chosen t = none) : Backed s p t L := by
  intro T k hT hk
  rcases h.ack_kept hk with hpre | ⟨u, x, L', hTu, hu, hcu, hL'⟩
  · exact Or.inl ⟨s.log p, h.log_rooted p, hpre, hup⟩
  · refine Or.inr ⟨u, x, L', hTu, ?_, hcu, hL'⟩
    have : u ≠ t := by rintro rfl; rw [hc] at hcu; cases hcu
    omega

/-- A rooted log stays rooted when the leader of term `t` extends it to its own leader log. -/
theorem rooted_concat (hL : Rooted s L) (hc : s.chosen (term e) = some x)
    (hlog : s.leaderLog (term e) = L ++ [e]) : Rooted s (L ++ [e]) := by
  intro i e' he
  by_cases hi : i < L.length
  · rw [List.getElem?_append_left hi] at he
    rw [take_eq_of_part (List.prefix_append L [e]) (by omega)]
    exact hL i e' he
  · have hil : i = L.length := by
      have := (List.getElem?_eq_some_iff.mp he).1
      simp only [List.length_append, List.length_singleton] at this
      omega
    subst hil
    have he' : e = e' := by simpa using he
    subst he'
    rw [hlog]
    exact ⟨⟨x, hc⟩, List.take_prefix _ _⟩

/-- What a node had acknowledged, its new log still has after it adopts a prefix of the current
leader's log, or that leader was elected without it. -/
theorem adopt_keeps (h : Inv Q s) {k : Nat} {new : List E} (hx : s.chosen (s.term n) = some x)
    (had : Adopts ((s.leaderLog (s.term n)).take k) (s.log n) new) {j : Nat} (hj : j ≤ s.ack n T) :
    (s.leaderLog T).take j <+: new ∨ Superseded s T j (s.term n + 1) := by
  rcases h.ack_kept hj with hpre | hsup
  · rcases Nat.eq_zero_or_pos j with rfl | hj0
    · exact Or.inl (by simp)
    have hT : T ≤ s.term n := h.ack_le (hj0.trans_le hj)
    have hP : (s.leaderLog (s.term n)).take k <+: s.leaderLog (s.term n) := List.take_prefix _ _
    rcases Nat.lt_or_ge T (s.term n) with hlt | hge
    · obtain ⟨c, L⟩ := x
      by_cases hL : (s.leaderLog T).take j <+: L
      · exact Or.inl (had.keeps hP (hL.trans (h.chosen_prefix hx)) hpre)
      · exact Or.inr ⟨_, c, L, hlt, Nat.lt_succ_self _, hx, hL⟩
    · obtain rfl : T = s.term n := by omega
      exact Or.inl (had.keeps hP (List.take_prefix _ _) hpre)
  · exact Or.inr hsup

variable [DecidableEq N]

/-- A step only adds to the history, and touches nothing of the other nodes and their terms. -/
theorem touches (h : Inv Q s) (hstep : Step Q n s s') : Touches n s s' := by
  cases hstep with
  | @advance t ht =>
    refine { Touches.refl n s with term := ?_, termOf := ?_ }
    · intro p
      by_cases hp : p = n
      · subst hp; simpa using ht
      · simp [hp]
    · intro m hm; simp [hm]
  | stand =>
    refine { Touches.refl n s with term := ?_, vote := ?_, stood := ?_, termOf := ?_, voteOf := ?_ }
    · intro p
      by_cases hp : p = n
      · subst hp; simp
      · simp [hp]
    · intro p t c hv
      have ht := h.vote_le hv
      by_cases hp : p = n
      · subst hp
        have : t ≠ s.term p + 1 := by omega
        simpa [this] using hv
      · simpa [hp] using hv
    · intro t c L hst
      have ht := (h.stood_le hst).2
      by_cases hc : c = n
      · subst hc
        have : t ≠ s.term c + 1 := by omega
        simpa [this] using hst
      · by_cases htn : t = s.term n + 1
        · subst htn; simpa [hc] using hst
        · simpa [htn] using hst
    · intro m hm; simp [hm]
    · intro m hm; funext t; simp [hm]
  | @grant c L hvote _ _ =>
    refine { Touches.refl n s with vote := ?_, voteOf := ?_ }
    · intro p t c' hv
      by_cases hp : p = n
      · subst hp
        by_cases ht : t = s.term p
        · subst ht
          rw [hv] at hvote
          have : c' = c := by simpa using hvote
          simp [this]
        · simpa [ht] using hv
      · simpa [hp] using hv
    · intro m hm; funext t; simp [hm]
  | @elect e _ hne hq _ =>
    have hnone := h.chosen_none hne hq
    refine { Touches.refl n s with
      chosen := ?_, leaderLog := ?_, logOf := ?_, chosenOf := ?_, leaderLogOf := ?_ }
    · intro t x hx
      have : t ≠ s.term n := by rintro rfl; rw [hnone] at hx; cases hx
      simpa [this] using hx
    · intro t
      by_cases ht : t = s.term n
      · subst ht; rw [h.unchosen hnone]; exact List.nil_prefix
      · simp [ht]
    · intro m hm; simp [hm]
    · intro m t L hm hc
      by_cases ht : t = s.term n
      · subst ht
        simp only [State.crown_chosen, Function.update_self, Option.some.injEq,
          Prod.mk.injEq] at hc
        exact absurd hc.1.symm hm
      · simpa [ht] using hc
    · intro m t L hm hc
      have : t ≠ s.term n := by rintro rfl; rw [hnone] at hc; cases hc
      simp [this]
  | @append e L hc hlog _ =>
    refine { Touches.refl n s with leaderLog := ?_, logOf := ?_, leaderLogOf := ?_ }
    · intro t
      by_cases ht : t = s.term n
      · subst ht; simp [hlog]
      · simp [ht]
    · intro m hm; simp [hm]
    · intro m t L' hm hc'
      have : t ≠ s.term n := by
        rintro rfl
        rw [hc, Option.some.injEq, Prod.mk.injEq] at hc'
        exact hm hc'.1.symm
      simp [this]
  | @accept k new x _ _ _ =>
    refine { Touches.refl n s with ack := ?_, logOf := ?_, ackOf := ?_ }
    · intro p t
      by_cases hp : p = n
      · subst hp
        by_cases ht : t = s.term p
        · subst ht; simp
        · simp [ht]
      · simp [hp]
    · intro m hm; simp [hm]
    · intro m hm; funext t; simp [hm]
  | @commit c L e hc _ _ _ _ =>
    refine { Touches.refl n s with committed := ?_, committedOf := ?_ }
    · intro t c' hd; exact Or.inl hd
    · intro m t c' L' hm hc' hd
      rcases hd with hd | ⟨rfl, _⟩
      · exact hd
      · rw [hc, Option.some.injEq, Prod.mk.injEq] at hc'
        exact absurd hc'.1.symm hm

/-! ## Preservation, field by field -/

section

variable (h : Inv Q s) (hstep : Step Q n s s')
include h hstep

theorem step_vote_le (hv : s'.vote p t = some c) : t ≤ s'.term p := by
  have ht := h.touches hstep
  by_cases hp : p = n
  · subst hp
    have hold : s.vote p t = some c → t ≤ s'.term p := fun h' => (h.vote_le h').trans (ht.term p)
    cases hstep with
    | stand =>
      by_cases htn : t = s.term p + 1
      · subst htn; simp
      · exact hold (by simpa [htn] using hv)
    | grant =>
      by_cases htn : t = s.term p
      · subst htn; simp
      · exact hold (by simpa [htn] using hv)
    | _ => exact hold hv
  · rw [ht.voteOf hp] at hv
    rw [ht.termOf hp]
    exact h.vote_le hv

/-- A step that stands adds one candidacy, with the node's own log; no other step adds any. -/
theorem step_stood (hst : s'.stood t c = some L) :
    s.stood t c = some L ∨
      c = n ∧ t = s.term n + 1 ∧ L = s.log n ∧ s'.term n = t ∧ Rooted s' L := by
  have ht := h.touches hstep
  cases hstep with
  | stand =>
    by_cases htn : t = s.term n + 1
    · subst htn
      by_cases hc : c = n
      · subst hc
        have hL : L = s.log c := by simpa using hst.symm
        subst hL
        exact Or.inr ⟨rfl, rfl, rfl, by simp, (h.log_rooted c).mono ht.toExtends⟩
      · exact Or.inl (by simpa [hc] using hst)
    · exact Or.inl (by simpa [htn] using hst)
  | _ => exact Or.inl hst

/-- A step that is elected adds one leader, of a term that had none; no other step adds any. -/
theorem step_chosen (hc : s'.chosen t = some (c, L)) :
    s.chosen t = some (c, L) ∨
      c = n ∧ t = s.term n ∧ L = s.log n ∧ s.stood t n = some (s.log n) ∧ s.chosen t = none ∧
        Q.IsQuorum {p | s.vote p t = some n} ∧ s'.vote = s.vote ∧ s'.ack = s.ack ∧
        ∃ e, term e = t ∧ s'.leaderLog t = s.log n ++ [e] := by
  cases hstep with
  | @elect e hst hne hq he =>
    by_cases htn : t = s.term n
    · subst htn
      have hcL : n = c ∧ s.log n = L := by simpa using hc
      obtain ⟨rfl, rfl⟩ := hcL
      exact Or.inr ⟨rfl, rfl, rfl, hst, h.chosen_none hne hq, hq, rfl, rfl, e, he, by simp⟩
    · exact Or.inl (by simpa [htn] using hc)
  | _ => exact Or.inl hc

/-- How a leader's log grows under a step: by entries of its own term. -/
theorem step_leaderLog (hc : s.chosen t = some x) :
    ∃ new, s'.leaderLog t = s.leaderLog t ++ new ∧ ∀ e ∈ new, term e = t := by
  cases hstep with
  | @elect e hst hne hq he =>
    have : t ≠ s.term n := by rintro rfl; rw [h.chosen_none hne hq] at hc; cases hc
    exact ⟨[], by simp [this]⟩
  | @append e L _ hlog he =>
    by_cases ht : t = s.term n
    · subst ht; exact ⟨[e], by simp [hlog], by simp [he]⟩
    · exact ⟨[], by simp [ht]⟩
  | _ => exact ⟨[], by simp⟩

theorem step_chosen_log (hc : s'.chosen t = some (c, L)) :
    ∃ new, s'.leaderLog t = L ++ new ∧ new ≠ [] ∧ ∀ e ∈ new, term e = t := by
  rcases h.step_chosen hstep hc with hc | ⟨_, _, rfl, _, _, _, _, _, e, he, hlog⟩
  · obtain ⟨old, hold, hne, hterm⟩ := h.chosen_log hc
    obtain ⟨new, hnew, hterm'⟩ := h.step_leaderLog hstep hc
    refine ⟨old ++ new, by rw [hnew, hold, List.append_assoc], by simp [hne], ?_⟩
    intro e he
    rcases List.mem_append.mp he with he | he
    · exact hterm e he
    · exact hterm' e he
  · exact ⟨[e], hlog, by simp, by simp [he]⟩

theorem step_unchosen (hc : s'.chosen t = none) : s'.leaderLog t = [] := by
  cases hstep with
  | elect =>
    have : t ≠ s.term n := by rintro rfl; simp at hc
    simpa [this] using h.unchosen (by simpa [this] using hc)
  | append hcn =>
    have : t ≠ s.term n := by
      rintro rfl
      have hc : s.chosen (s.term n) = none := hc
      rw [hcn] at hc; cases hc
    simpa [this] using h.unchosen hc
  | _ => exact h.unchosen hc

/-- Acknowledgements of a term a node has already left never change again. -/
theorem step_ack_lt (hT : T < s.term p) : s'.ack p T = s.ack p T := by
  by_cases hp : p = n
  · subst hp
    cases hstep with
    | accept =>
      have : T ≠ s.term p := by omega
      simp [this]
    | _ => rfl
  · rw [(h.touches hstep).ackOf hp]

/-- A vote stays backed, whatever the nodes do afterwards. -/
theorem step_backed (hv : s.vote p t = some c) (hb : Backed s p t L) : Backed s' p t L :=
  h.backed_mono (h.touches hstep).toExtends hb
    fun _ hT => h.step_ack_lt hstep (hT.trans_le (h.vote_le hv))

theorem step_elected_by (hc : s'.chosen t = some (c, L)) :
    Q.IsQuorum {p | s'.vote p t = some c ∧ Backed s' p t L} := by
  have ht := h.touches hstep
  rcases h.step_chosen hstep hc with hc | ⟨rfl, rfl, rfl, hst, hnone, hq, hvote, _, _⟩
  · refine Q.mono ?_ (h.elected_by hc)
    rintro p ⟨hv, hb⟩
    exact ⟨ht.vote hv, h.step_backed hstep hv hb⟩
  · refine Q.mono ?_ hq
    intro p hv
    have hv : s.vote p (s.term c) = some c := hv
    obtain ⟨L, hL, hb⟩ := h.vote_backed hv hnone
    rw [hst, Option.some.injEq] at hL
    subst hL
    exact ⟨by rw [hvote]; exact hv, h.step_backed hstep hv hb⟩

theorem step_vote_backed (hv : s'.vote p t = some c) (hc : s'.chosen t = none)
    : ∃ L, s'.stood t c = some L ∧ Backed s' p t L := by
  have ht := h.touches hstep
  have hcs : s.chosen t = none := by
    cases hx : s.chosen t with
    | none => rfl
    | some x => rw [ht.chosen hx] at hc; cases hc
  have hold : s.vote p t = some c → ∃ L, s'.stood t c = some L ∧ Backed s' p t L := by
    intro hv
    obtain ⟨L, hst, hb⟩ := h.vote_backed hv hcs
    exact ⟨L, ht.stood hst, h.step_backed hstep hv hb⟩
  by_cases hp : p = n
  · subst hp
    cases hstep with
    | stand =>
      by_cases htn : t = s.term p + 1
      · -- the candidate's own vote: its log dominates itself
        subst htn
        have hcp : p = c := by simpa using hv
        subst hcp
        have hup : UpToDate (s.log p) (s.log p) := Or.inr ⟨rfl, le_rfl⟩
        exact ⟨s.log p, by simp,
          h.backed_mono ht.toExtends (h.backed_of_upToDate hup (by omega) hcs) fun _ _ => rfl⟩
      · exact hold (by simpa [htn] using hv)
    | @grant c' L _ hst hup =>
      by_cases htn : t = s.term p
      · subst htn
        have hcc : c' = c := by simpa using hv
        subst hcc
        exact ⟨L, hst,
          h.backed_mono ht.toExtends (h.backed_of_upToDate hup le_rfl hcs) fun _ _ => rfl⟩
      · exact hold (by simpa [htn] using hv)
    | _ => exact hold hv
  · rw [ht.voteOf hp] at hv
    exact hold hv

theorem step_log_rooted (p : N) : Rooted s' (s'.log p) := by
  have ht := h.touches hstep
  by_cases hp : p = n
  · subst hp
    have hold := (h.log_rooted p).mono ht.toExtends
    cases hstep with
    | @elect e _ _ _ he =>
      simp only [State.crown_log, State.extend_log, Function.update_self]
      exact rooted_concat hold (x := (p, s.log p)) (by simp [he]) (by simp [he])
    | @append e L hc _ he =>
      simp only [State.extend_log, Function.update_self]
      refine rooted_concat hold (x := (p, L)) ?_ (by simp [he])
      rw [he]; exact hc
    | @accept k new x hx hk had =>
      simp only [State.adopt_log, Function.update_self]
      rcases had with ⟨_, rfl⟩ | ⟨_, rfl⟩
      · exact hold
      · exact ((h.leaderLog_rooted _).of_part (List.take_prefix _ _)).mono ht.toExtends
    | _ => exact hold
  · rw [ht.logOf hp]
    exact (h.log_rooted p).mono ht.toExtends

theorem step_log_le (p : N) : ∀ e ∈ s'.log p, term e ≤ s'.term p := by
  have ht := h.touches hstep
  intro e he
  by_cases hp : p = n
  · subst hp
    have hold : e ∈ s.log p → term e ≤ s'.term p := fun h' => (h.log_le p e h').trans (ht.term p)
    cases hstep with
    | @elect e' _ _ _ he' =>
      simp only [State.crown_log, State.extend_log, Function.update_self, List.mem_append,
        List.mem_singleton] at he
      rcases he with he | rfl
      · exact hold he
      · exact he'.le
    | @append e' L _ _ he' =>
      simp only [State.extend_log, Function.update_self, List.mem_append,
        List.mem_singleton] at he
      rcases he with he | rfl
      · exact hold he
      · exact he'.le
    | @accept k new x hx hk had =>
      simp only [State.adopt_log, Function.update_self] at he
      rcases had with ⟨_, rfl⟩ | ⟨_, rfl⟩
      · exact hold he
      · exact h.leaderLog_le (List.mem_of_mem_take he)
    | _ => exact hold he
  · rw [ht.logOf hp] at he
    rw [ht.termOf hp]
    exact h.log_le p e he

theorem step_ack_le (hpos : 0 < s'.ack p t) : t ≤ s'.term p := by
  have ht := h.touches hstep
  by_cases hp : p = n
  · subst hp
    have hold : 0 < s.ack p t → t ≤ s'.term p := fun h' => (h.ack_le h').trans (ht.term p)
    cases hstep with
    | accept =>
      by_cases htn : t = s.term p
      · subst htn; simp
      · exact hold (by simpa [htn] using hpos)
    | _ => exact hold hpos
  · rw [ht.ackOf hp] at hpos
    rw [ht.termOf hp]
    exact h.ack_le hpos

theorem step_ack_length (p : N) (t : Nat) : s'.ack p t ≤ (s'.leaderLog t).length := by
  have ht := h.touches hstep
  have hold := (h.ack_length p t).trans (ht.leaderLog t).length_le
  by_cases hp : p = n
  · subst hp
    cases hstep with
    | accept _ hk _ =>
      by_cases htn : t = s.term p
      · subst htn
        simpa using ⟨h.ack_length p _, hk⟩
      · simpa [htn] using h.ack_length p t
    | _ => exact hold
  · rw [ht.ackOf hp]
    exact hold

theorem step_ack_kept {k : Nat} (hk : k ≤ s'.ack p T) :
    (s'.leaderLog T).take k <+: s'.log p ∨ Superseded s' T k (s'.term p + 1) := by
  have ht := h.touches hstep
  -- an old acknowledgement, for any log that still has what the old one had
  have hold : k ≤ s.ack p T → ((s.leaderLog T).take k <+: s.log p → s.log p <+: s'.log p) →
      (s'.leaderLog T).take k <+: s'.log p ∨ Superseded s' T k (s'.term p + 1) := by
    intro hk hlog
    have hlen := hk.trans (h.ack_length p T)
    rw [take_eq_of_part (ht.leaderLog T) hlen]
    rcases h.ack_kept hk with hpre | hsup
    · exact Or.inl (hpre.trans (hlog hpre))
    · exact Or.inr (hsup.mono ht.toExtends (Nat.succ_le_succ (ht.term p)) hlen)
  by_cases hp : p = n
  · subst hp
    cases hstep with
    | elect => exact hold hk fun _ => by simp
    | append => exact hold hk fun _ => by simp
    | @accept j new x hx hj had =>
      simp only [State.adopt_leaderLog, State.adopt_log, Function.update_self,
        State.adopt_term] at hk ⊢
      have hsame : Superseded s T k (s.term p + 1) →
          Superseded (s.adopt p j new) T k (s.term p + 1) := fun hsup => hsup
      by_cases hT : T = s.term p ∧ k ≤ j
      · obtain ⟨rfl, hkj⟩ := hT
        exact Or.inl ((take_prefix_take hkj).trans had.has)
      · have hk : k ≤ s.ack p T := by
          by_cases hTn : T = s.term p
          · subst hTn
            simp only [State.adopt_ack, Function.update_self, le_max_iff] at hk
            rcases hk with hk | hk
            · exact hk
            · exact absurd ⟨rfl, hk⟩ hT
          · simpa [hTn] using hk
        exact (h.adopt_keeps hx had hk).imp_right hsame
    | _ => exact hold hk fun _ => List.prefix_rfl
  · rw [ht.ackOf hp] at hk
    exact hold hk fun _ => by rw [ht.logOf hp]

theorem step_committed_by {c : Nat} (hd : s'.committed t c) :
    0 < c ∧ (∃ e, (s'.leaderLog t)[c - 1]? = some e ∧ term e = t) ∧
      Q.IsQuorum {p | c ≤ s'.ack p t} := by
  have ht := h.touches hstep
  have hold : s.committed t c → 0 < c ∧ (∃ e, (s'.leaderLog t)[c - 1]? = some e ∧ term e = t) ∧
      Q.IsQuorum {p | c ≤ s'.ack p t} := by
    intro hd
    obtain ⟨hpos, ⟨e, he, hte⟩, hq⟩ := h.committed_by hd
    refine ⟨hpos, ⟨e, ?_, hte⟩, Q.mono (fun p hp => le_trans hp (ht.ack p t)) hq⟩
    obtain ⟨C, hC⟩ := ht.leaderLog t
    rw [← hC, List.getElem?_append_left (List.getElem?_eq_some_iff.mp he).1]
    exact he
  cases hstep with
  | @commit c' L e _ hq he hpos hte =>
    rcases hd with hd | ⟨rfl, rfl⟩
    · exact hold hd
    · exact ⟨hpos, ⟨e, he, hte⟩, hq⟩
  | _ => exact hold hd

end

/-- The invariant is inductive. -/
theorem step (h : Inv Q s) (hstep : Step Q n s s') : Inv Q s' where
  vote_le := h.step_vote_le hstep
  stood_le hst := by
    rcases h.step_stood hstep hst with hst | ⟨rfl, rfl, _, hterm, _⟩
    · exact ⟨(h.stood_le hst).1, (h.stood_le hst).2.trans ((h.touches hstep).term _)⟩
    · exact ⟨Nat.succ_pos _, hterm.ge⟩
  stood_rooted hst := by
    rcases h.step_stood hstep hst with hst | ⟨_, _, _, _, hL⟩
    · exact (h.stood_rooted hst).mono (h.touches hstep).toExtends
    · exact hL
  stood_lt hst := by
    rcases h.step_stood hstep hst with hst | ⟨rfl, rfl, rfl, _, _⟩
    · exact h.stood_lt hst
    · exact fun e he => Nat.lt_succ_of_le (h.log_le _ e he)
  chosen_stood hc := by
    rcases h.step_chosen hstep hc with hc | ⟨rfl, _, rfl, hst, _⟩
    · exact (h.touches hstep).stood (h.chosen_stood hc)
    · exact (h.touches hstep).stood hst
  chosen_log := h.step_chosen_log hstep
  unchosen := h.step_unchosen hstep
  elected_by := h.step_elected_by hstep
  vote_backed := h.step_vote_backed hstep
  log_rooted := h.step_log_rooted hstep
  log_le := h.step_log_le hstep
  ack_le := h.step_ack_le hstep
  ack_length := h.step_ack_length hstep
  ack_kept := h.step_ack_kept hstep
  committed_by := h.step_committed_by hstep

end Inv

end Consensus
