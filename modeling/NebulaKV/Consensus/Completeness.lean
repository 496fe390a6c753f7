/-
# Leader completeness, and what follows from it

Everything committed in one term is in the log of every leader of a later term, whichever of the
commit and the election came first in time. The induction is over terms; the step is the meeting of
the quorum that acknowledged the entry with the quorum that elected the later leader.
-/
import NebulaKV.Consensus.Safety

namespace Consensus

variable {N E : Type*} [Termed E]

theorem lastTerm_of_getElem? {L : List E} {e : E} (h : L[L.length - 1]? = some e) :
    lastTerm L = term e := by
  simp [lastTerm, List.getLast?_eq_getElem?, h]

theorem exists_last_of_lastTerm_pos {L : List E} (h : 0 < lastTerm L) :
    ∃ e, L[L.length - 1]? = some e ∧ lastTerm L = term e := by
  cases he : L[L.length - 1]? with
  | none => simp [lastTerm, List.getLast?_eq_getElem?, he] at h
  | some e => exact ⟨e, rfl, lastTerm_of_getElem? he⟩

namespace Inv

variable {Q : QuorumSystem N} {s s' : State N E}
variable {T c i t : Nat} {L : List E} {e : E} {x : N × List E}

section

variable (h : Inv Q s)
include h

theorem chosen_pos (hc : s.chosen t = some x) : 0 < t :=
  (h.stood_le (h.chosen_stood (c := x.1) (L := x.2) hc)).1

/-- Terms never decrease along a rooted log. -/
theorem term_le_of_rooted (hL : Rooted s L) {j : Nat} {e' : E} (he : L[i]? = some e)
    (he' : L[j]? = some e') (hij : i ≤ j) : term e ≤ term e' := by
  refine h.leaderLog_le ((hL j e' he').2.mem (List.mem_iff_getElem?.mpr ⟨i, ?_⟩))
  rw [List.getElem?_take_of_lt (by omega)]
  exact he

theorem term_le_lastTerm (hL : Rooted s L) (he : L[i]? = some e) : term e ≤ lastTerm L := by
  have hi := (List.getElem?_eq_some_iff.mp he).1
  have hlast : L[L.length - 1]? = some L[L.length - 1] := by simp
  rw [lastTerm_of_getElem? hlast]
  exact h.term_le_of_rooted hL he hlast (by omega)

theorem term_pos_of_rooted (hL : Rooted s L) (he : L[i]? = some e) : 0 < term e := by
  obtain ⟨⟨x, hx⟩, _⟩ := hL i e he
  exact h.chosen_pos hx

/-- **Domination carries a committed prefix.** If a log that has the prefix is dominated by `L`, and
every leader elected between the prefix's term and `t` has the prefix, then so has `L`. -/
theorem prefix_of_upToDate {V : List E} {ec : E} (hec : (s.leaderLog T)[c - 1]? = some ec)
    (hect : term ec = T) (hc : 0 < c) (hL : Rooted s L) (hlt : ∀ e ∈ L, term e < t)
    (hV : Rooted s V) (hpre : (s.leaderLog T).take c <+: V) (hup : UpToDate L V)
    (ih : ∀ u x L', T < u → u < t → s.chosen u = some (x, L') → (s.leaderLog T).take c <+: L') :
    (s.leaderLog T).take c <+: L := by
  have hcl : c ≤ (s.leaderLog T).length := by
    have := (List.getElem?_eq_some_iff.mp hec).1
    omega
  have hVc : V[c - 1]? = some ec := by
    obtain ⟨C, rfl⟩ := hpre
    rw [List.getElem?_append_left (by simp; omega), List.getElem?_take_of_lt (by omega)]
    exact hec
  have hTV : T ≤ lastTerm V := hect ▸ h.term_le_lastTerm hV hVc
  have hT : 0 < T := hect ▸ h.term_pos_of_rooted hV hVc
  have hVL : lastTerm V ≤ lastTerm L := by
    rcases hup with hlt | ⟨heq, _⟩
    · exact hlt.le
    · exact heq.le
  obtain ⟨e, he, hle⟩ := exists_last_of_lastTerm_pos (L := L) (by omega)
  have hei := (List.getElem?_eq_some_iff.mp he).1
  obtain ⟨⟨⟨y, Ly⟩, hy⟩, hLy⟩ := hL _ e he
  rw [show L.length - 1 + 1 = L.length by omega, List.take_length] at hLy
  rcases Nat.lt_or_ge T (term e) with hTe | hTe
  · -- the last entry of `L` was created by a later leader, elected with the prefix
    have hpreY := ih _ y Ly hTe (hlt e (List.mem_of_getElem? he)) hy
    refine hpreY.trans (List.prefix_of_prefix_length_le (h.chosen_prefix hy) hLy ?_)
    by_contra hlen
    have hLLy := List.prefix_of_prefix_length_le hLy (h.chosen_prefix hy) (by omega)
    exact absurd (h.chosen_lt hy e (hLLy.mem (List.mem_of_getElem? he))) (lt_irrefl _)
  · -- both logs end inside the log of the committing leader
    have hte : term e = T := by omega
    rw [hte] at hLy
    have hlen : V.length ≤ L.length := by
      rcases hup with hlt | ⟨_, hlen⟩
      · omega
      · exact hlen
    have hcV := (List.getElem?_eq_some_iff.mp hVc).1
    rw [take_eq_of_part hLy (by omega)]
    exact List.take_prefix _ _

/-- **Leader completeness.** A leader of a later term was elected with everything committed. -/
theorem leader_completeness (hd : s.committed T c) :
    ∀ {t : Nat} {x : N} {L : List E}, T < t → s.chosen t = some (x, L) →
      (s.leaderLog T).take c <+: L := by
  obtain ⟨hc, ⟨ec, hec, hect⟩, hq⟩ := h.committed_by hd
  intro t
  induction t using Nat.strong_induction_on with
  | _ t ih =>
    intro x L hTt hx
    obtain ⟨p, hp, _, hb⟩ := Q.meet hq (h.elected_by hx)
    have hst := h.chosen_stood hx
    rcases hb T c hTt hp with ⟨V, hV, hpre, hup⟩ | ⟨u, y, L', hTu, hut, hy, hne⟩
    · exact h.prefix_of_upToDate hec hect hc (h.stood_rooted hst) (h.stood_lt hst) hV hpre hup
        fun u y L' hTu hut hy => ih u hut hTu hy
    · exact absurd (ih u hut hTu hy) hne

theorem committed_prefix (hd : s.committed T c) (hTt : T ≤ t) (hx : s.chosen t = some x)
    : (s.leaderLog T).take c <+: s.leaderLog t := by
  obtain ⟨y, L⟩ := x
  rcases Nat.lt_or_ge T t with hlt | hge
  · exact (h.leader_completeness hd hlt hx).trans (h.chosen_prefix hx)
  · obtain rfl : T = t := by omega
    exact List.take_prefix _ _

theorem committed_length (hd : s.committed T c) : c ≤ (s.leaderLog T).length := by
  obtain ⟨hc, ⟨e, he, _⟩, _⟩ := h.committed_by hd
  have := (List.getElem?_eq_some_iff.mp he).1
  omega

theorem committed_chosen (hd : s.committed T c) : ∃ x, s.chosen T = some x := by
  obtain ⟨_, ⟨e, he, _⟩, _⟩ := h.committed_by hd
  exact h.chosen_of_mem (List.mem_of_getElem? he)

/-- Two committed prefixes agree as far as both reach. -/
theorem committed_agree {T' c' : Nat} (hd : s.committed T c) (hd' : s.committed T' c') (hi : i < c)
    (hi' : i < c') : (s.leaderLog T)[i]? = (s.leaderLog T')[i]? := by
  wlog hle : T ≤ T' generalizing T c T' c'
  · exact (this hd' hd hi' hi (by omega)).symm
  obtain ⟨x, hx⟩ := h.committed_chosen hd'
  obtain ⟨C, hC⟩ := h.committed_prefix hd hle hx
  have hlen := h.committed_length hd
  rw [← hC, List.getElem?_append_left (by simp; omega), List.getElem?_take_of_lt hi]

/-- A node that acknowledged a committed prefix still has it. -/
theorem committed_kept {p : N} (hd : s.committed T c) (hack : c ≤ s.ack p T) :
    (s.leaderLog T).take c <+: s.log p := by
  rcases h.ack_kept hack with hpre | ⟨t, x, L, hTt, _, hx, hne⟩
  · exact hpre
  · exact absurd (h.leader_completeness hd hTt hx) hne

/-- The entries of a leader's own term lie above everything committed in earlier terms. -/
theorem lt_of_own_term (hd : s.committed T c) (hTt : T < t) (hx : s.chosen t = some x)
    (he : (s.leaderLog t)[i]? = some e) (hte : term e = t) : c ≤ i := by
  obtain ⟨y, L⟩ := x
  by_contra hlt
  have hpre := h.leader_completeness hd hTt hx
  have hlen := hpre.length_le
  have hcl := h.committed_length hd
  simp only [List.length_take] at hlen
  obtain ⟨new, hnew, _⟩ := h.chosen_log hx
  rw [hnew, List.getElem?_append_left (by omega)] at he
  have := h.chosen_lt hx e (List.mem_of_getElem? he)
  omega

end

end Inv

end Consensus
