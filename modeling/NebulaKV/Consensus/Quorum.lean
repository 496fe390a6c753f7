/-
# Quorum systems, and the majorities of a static membership

A safety argument for a replicated log counts nodes exactly twice: the nodes that voted for a
leader, and the nodes that acknowledged an entry. All it ever uses of either count is that two
counted sets MEET. `QuorumSystem` is that interface; `majority` is the instance a static membership
list gives, with the threshold `n / 2 + 1`.
-/
import Mathlib.Data.List.Basic
import Mathlib.Data.List.Dedup
import Mathlib.Data.List.Sort
import Mathlib.Data.Finset.Card
import Mathlib.Data.Set.Basic
import Mathlib.Tactic.Linarith

namespace Consensus

/-- The sets of nodes that count as a quorum: upward closed, and any two of them meet. -/
structure QuorumSystem (N : Type*) where
  IsQuorum : Set N → Prop
  mono : ∀ {A B : Set N}, A ⊆ B → IsQuorum A → IsQuorum B
  meet : ∀ {A B : Set N}, IsQuorum A → IsQuorum B → ∃ n, n ∈ A ∧ n ∈ B

variable {N : Type*} [DecidableEq N]

/-- Two duplicate-free lists of members that are each longer than half of the membership share a
member. -/
theorem exists_mem_of_majorities {members A B : List N} (hA : A.Nodup) (hB : B.Nodup)
    (hAm : ∀ p ∈ A, p ∈ members) (hBm : ∀ p ∈ B, p ∈ members)
    (hAlen : members.length / 2 + 1 ≤ A.length) (hBlen : members.length / 2 + 1 ≤ B.length) :
    ∃ p, p ∈ A ∧ p ∈ B := by
  by_contra hdisjoint
  push Not at hdisjoint
  -- were they disjoint, both together would outnumber the membership
  have hsub : A.toFinset ∪ B.toFinset ⊆ members.toFinset := by
    intro p hp
    simp only [Finset.mem_union, List.mem_toFinset] at hp ⊢
    exact hp.elim (hAm p) (hBm p)
  have hdisj : Disjoint A.toFinset B.toFinset := by
    rw [Finset.disjoint_left]
    intro p hpA hpB
    exact hdisjoint p (List.mem_toFinset.mp hpA) (List.mem_toFinset.mp hpB)
  have hcard := Finset.card_le_card hsub
  rw [Finset.card_union_of_disjoint hdisj, List.toFinset_card_of_nodup hA,
    List.toFinset_card_of_nodup hB] at hcard
  have hmembers := members.toFinset_card_le
  omega

/-- `A` holds a majority: more than half of `members` can be listed without repetition inside it. -/
def IsMajority (members : List N) (A : Set N) : Prop :=
  ∃ l : List N, l.Nodup ∧ (∀ p ∈ l, p ∈ members ∧ p ∈ A) ∧ members.length / 2 + 1 ≤ l.length

/-- The majorities of a membership list are a quorum system. -/
def majority (members : List N) : QuorumSystem N where
  IsQuorum := IsMajority members
  mono := by
    rintro A B hAB ⟨l, hnodup, hl, hlen⟩
    exact ⟨l, hnodup, fun p hp => ⟨(hl p hp).1, hAB (hl p hp).2⟩, hlen⟩
  meet := by
    rintro A B ⟨l, hl, hlA, hllen⟩ ⟨r, hr, hrB, hrlen⟩
    obtain ⟨p, hpl, hpr⟩ := exists_mem_of_majorities hl hr (fun p hp => (hlA p hp).1)
      (fun p hp => (hrB p hp).1) hllen hrlen
    exact ⟨p, (hlA p hpl).2, (hrB p hpr).2⟩

/-- In a list sorted upwards, the `q`-th value from the end is reached by at least `q` of the
values. -/
theorem le_count_of_sorted {l : List Nat} {q x : Nat} (hq : q ≤ l.length)
    (hx : (l.insertionSort (· ≤ ·))[l.length - q]? = some x) : q ≤ (l.filter (x ≤ ·)).length := by
  have hperm := l.perm_insertionSort (· ≤ ·)
  have hsorted := List.pairwise_insertionSort (· ≤ ·) l
  rw [← (hperm.filter _).length_eq]
  have hdrop : ∀ y ∈ (l.insertionSort (· ≤ ·)).drop (l.length - q), x ≤ y := by
    intro y hy
    obtain ⟨i, hi⟩ := List.mem_iff_getElem?.mp hy
    rw [List.getElem?_drop] at hi
    obtain ⟨hlt, rfl⟩ := List.getElem?_eq_some_iff.mp hx
    obtain ⟨hlt', rfl⟩ := List.getElem?_eq_some_iff.mp hi
    rcases Nat.eq_zero_or_pos i with rfl | hpos
    · exact le_rfl
    · exact List.pairwise_iff_getElem.mp hsorted _ _ hlt hlt' (by omega)
  have hlen : ((l.insertionSort (· ≤ ·)).drop (l.length - q)).length = q := by
    rw [List.length_drop, hperm.length_eq]
    omega
  calc q = (((l.insertionSort (· ≤ ·)).drop (l.length - q)).filter (x ≤ ·)).length := by
        rw [List.filter_eq_self.mpr (by simpa using hdrop), hlen]
    _ ≤ ((l.insertionSort (· ≤ ·)).filter (x ≤ ·)).length :=
        ((List.drop_sublist _ _).filter _).length_le

/-- And no greater number is reached by as many. -/
theorem count_lt_of_sorted {l : List Nat} {q x y : Nat} (hpos : 0 < q) (hq : q ≤ l.length)
    (hx : (l.insertionSort (· ≤ ·))[l.length - q]? = some x) (hy : x < y) :
    (l.filter (y ≤ ·)).length < q := by
  have hperm := l.perm_insertionSort (· ≤ ·)
  have hsorted := List.pairwise_insertionSort (· ≤ ·) l
  have hlength := hperm.length_eq
  rw [← (hperm.filter _).length_eq]
  -- everything up to the position of `x` is at most `x`
  have htake : ((l.insertionSort (· ≤ ·)).take (l.length - q + 1)).filter (y ≤ ·) = [] := by
    refine List.filter_eq_nil_iff.mpr fun z hz => ?_
    obtain ⟨i, hi⟩ := List.mem_iff_getElem?.mp hz
    rw [List.getElem?_take] at hi
    split_ifs at hi with hlt
    obtain ⟨hxlt, rfl⟩ := List.getElem?_eq_some_iff.mp hx
    obtain ⟨hilt, rfl⟩ := List.getElem?_eq_some_iff.mp hi
    simp only [decide_eq_true_eq, not_le]
    rcases Nat.lt_or_eq_of_le (Nat.le_of_lt_succ hlt) with hbefore | rfl
    · exact lt_of_le_of_lt (List.pairwise_iff_getElem.mp hsorted _ _ hilt hxlt hbefore) hy
    · exact hy
  calc ((l.insertionSort (· ≤ ·)).filter (y ≤ ·)).length
      = (((l.insertionSort (· ≤ ·)).drop (l.length - q + 1)).filter (y ≤ ·)).length := by
        conv_lhs => rw [← List.take_append_drop (l.length - q + 1) (l.insertionSort (· ≤ ·))]
        rw [List.filter_append, htake, List.nil_append]
    _ ≤ ((l.insertionSort (· ≤ ·)).drop (l.length - q + 1)).length := List.length_filter_le _ _
    _ < q := by
        rw [List.length_drop, hlength]
        omega

end Consensus
