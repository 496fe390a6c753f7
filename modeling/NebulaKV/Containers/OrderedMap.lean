/-
# Ordered maps

The finite map a search tree with `operator<` gives: its entries, in strictly increasing key order.
Everything a client can see of one is `find?` and the order of `entries`; two maps that answer
`find?` alike ARE equal (`OrderedMap.ext_find?`), because the order leaves no freedom.
-/
import Mathlib.Order.Lattice
import Mathlib.Data.List.Basic
import Mathlib.Data.List.Pairwise
import Mathlib.Tactic.Common

namespace Containers

variable {κ α : Type*} [LinearOrder κ]
variable {l : List (κ × α)} {k : κ} {a : κ × α} {v : α}

/-- Strictly increasing keys. -/
def KeySorted (l : List (κ × α)) : Prop := l.Pairwise fun a b => a.1 < b.1

def lookup (k : κ) : List (κ × α) → Option α
  | [] => none
  | (k', v) :: rest => if k = k' then some v else lookup k rest

/-- Insert in key order, replacing the value of a key that is there. -/
def insertEntry (k : κ) (v : α) : List (κ × α) → List (κ × α)
  | [] => [(k, v)]
  | (k', v') :: rest =>
    if k < k' then (k, v) :: (k', v') :: rest
    else if k = k' then (k, v) :: rest
    else (k', v') :: insertEntry k v rest

/-! ## Lists of entries -/

theorem KeySorted.tail (h : KeySorted (a :: l)) : KeySorted l :=
  h.of_cons

theorem KeySorted.lt_of_mem {b : κ × α} (h : KeySorted (a :: l)) (hb : b ∈ l) : a.1 < b.1 :=
  List.rel_of_pairwise_cons h hb

theorem mem_of_lookup (h : lookup k l = some v) : (k, v) ∈ l := by
  induction l with
  | nil => simp [lookup] at h
  | cons a rest ih =>
    obtain ⟨k', v'⟩ := a
    simp only [lookup] at h
    split_ifs at h with hk
    · subst hk
      simp only [Option.some.injEq] at h
      simp [h]
    · exact List.mem_cons_of_mem _ (ih h)

theorem lookup_eq_some_iff (hl : KeySorted l) : lookup k l = some v ↔ (k, v) ∈ l := by
  refine ⟨mem_of_lookup, ?_⟩
  induction l with
  | nil => simp
  | cons a rest ih =>
    obtain ⟨k', v'⟩ := a
    intro h
    simp only [lookup]
    rcases List.mem_cons.mp h with h | h
    · simp only [Prod.mk.injEq] at h
      simp [h.1, h.2]
    · have hlt : k' < k := hl.lt_of_mem h
      rw [if_neg hlt.ne']
      exact ih hl.tail h

theorem lookup_eq_none_iff : lookup k l = none ↔ ∀ a ∈ l, a.1 ≠ k := by
  induction l with
  | nil => simp [lookup]
  | cons a rest ih =>
    obtain ⟨k', v'⟩ := a
    simp only [lookup, List.forall_mem_cons]
    split_ifs with hk
    · simp [hk]
    · rw [ih]
      exact ⟨fun h => ⟨fun hk' => hk hk'.symm, h⟩, fun h => h.2⟩

theorem mem_insertEntry (h : a ∈ insertEntry k v l) : a = (k, v) ∨ a ∈ l := by
  induction l with
  | nil => simpa [insertEntry] using h
  | cons b rest ih =>
    obtain ⟨k', v'⟩ := b
    simp only [insertEntry] at h
    split_ifs at h with h1 h2
    · simpa using h
    · rcases List.mem_cons.mp h with h | h
      · exact Or.inl h
      · exact Or.inr (List.mem_cons_of_mem _ h)
    · rcases List.mem_cons.mp h with h | h
      · exact Or.inr (by simp [h])
      · exact (ih h).imp_right (List.mem_cons_of_mem _)

theorem KeySorted.insertEntry (hl : KeySorted l) (k : κ) (v : α) :
    KeySorted (insertEntry k v l) := by
  induction l with
  | nil => simp [Containers.insertEntry, KeySorted]
  | cons a rest ih =>
    obtain ⟨k', v'⟩ := a
    simp only [Containers.insertEntry]
    split_ifs with h1 h2
    · refine List.pairwise_cons.mpr ⟨?_, hl⟩
      exact List.forall_mem_cons.mpr ⟨h1, fun b hb => h1.trans (hl.lt_of_mem hb)⟩
    · subst h2
      exact List.pairwise_cons.mpr ⟨fun b hb => hl.lt_of_mem hb, hl.tail⟩
    · refine List.pairwise_cons.mpr ⟨?_, ih hl.tail⟩
      intro b hb
      rcases mem_insertEntry hb with rfl | hb
      · exact lt_of_le_of_ne (not_lt.mp h1) (Ne.symm h2)
      · exact hl.lt_of_mem hb

theorem lookup_insertEntry (k k' : κ) (v : α) (l : List (κ × α)) :
    lookup k' (insertEntry k v l) = if k' = k then some v else lookup k' l := by
  induction l with
  | nil => simp [insertEntry, lookup]
  | cons a rest ih =>
    obtain ⟨j, w⟩ := a
    simp only [insertEntry]
    by_cases h1 : k < j
    · rw [if_pos h1]
      simp only [lookup]
    rw [if_neg h1]
    by_cases h2 : k = j
    · subst h2
      rw [if_pos rfl]
      simp only [lookup]
      split_ifs <;> rfl
    · rw [if_neg h2]
      simp only [lookup, ih]
      by_cases h3 : k' = j
      · rw [if_pos h3, if_neg fun h => h2 (h.symm.trans h3), if_pos h3]
      · rw [if_neg h3, if_neg h3]

/-- Everything behind is larger still. -/
theorem lookup_of_lt {j : κ} {w : α} (hl : KeySorted ((j, w) :: l)) (h : k < j) :
    lookup k ((j, w) :: l) = none := by
  refine lookup_eq_none_iff.mpr fun b hb => ?_
  rcases List.mem_cons.mp hb with rfl | hb
  · exact h.ne'
  · exact (h.trans (hl.lt_of_mem hb)).ne'

theorem length_insertEntry (k : κ) (v : α) (hl : KeySorted l) :
    (insertEntry k v l).length = if (lookup k l).isSome then l.length else l.length + 1 := by
  induction l with
  | nil => rfl
  | cons a rest ih =>
    obtain ⟨j, w⟩ := a
    simp only [insertEntry]
    by_cases h1 : k < j
    · simp [h1, lookup_of_lt hl h1]
    rw [if_neg h1]
    by_cases h2 : k = j
    · simp [h2, lookup]
    · rw [if_neg h2, List.length_cons, ih hl.tail, lookup, if_neg h2]
      split_ifs <;> rfl

/-- What an insertion changes in the number of entries with a property. -/
theorem countP_insertEntry (p : κ × α → Bool) (k : κ) (v : α) (hl : KeySorted l) :
    (insertEntry k v l).countP p + (if (lookup k l).any fun old => p (k, old) then 1 else 0) =
      l.countP p + (if p (k, v) then 1 else 0) := by
  induction l with
  | nil => simp [insertEntry, lookup, List.countP_cons]
  | cons a rest ih =>
    obtain ⟨j, w⟩ := a
    simp only [insertEntry]
    by_cases h1 : k < j
    · rw [if_pos h1, lookup_of_lt hl h1, List.countP_cons]
      rfl
    rw [if_neg h1]
    by_cases h2 : k = j
    · subst h2
      rw [if_pos rfl, lookup, if_pos rfl, List.countP_cons, List.countP_cons]
      simp only [Option.any_some]
      omega
    · have hrest := ih hl.tail
      rw [if_neg h2, lookup, if_neg h2, List.countP_cons, List.countP_cons]
      omega

theorem length_filter_ne (k : κ) (hl : KeySorted l) :
    (l.filter (·.1 ≠ k)).length = if (lookup k l).isSome then l.length - 1 else l.length := by
  induction l with
  | nil => rfl
  | cons a rest ih =>
    obtain ⟨j, w⟩ := a
    by_cases hj : j = k
    · subst hj
      have hsame : rest.filter (·.1 ≠ j) = rest :=
        List.filter_eq_self.mpr fun b hb => by simpa using (hl.lt_of_mem hb).ne'
      rw [List.filter_cons_of_neg (by simp), hsame]
      simp [lookup]
    · rw [List.filter_cons_of_pos (by simpa using hj), List.length_cons, ih hl.tail, lookup,
        if_neg (Ne.symm hj)]
      split_ifs with h
      · have hpos : 0 < rest.length := by
          obtain ⟨v, hv⟩ := Option.isSome_iff_exists.mp h
          exact List.length_pos_of_mem (mem_of_lookup hv)
        simp only [List.length_cons]
        omega
      · rfl

theorem lookup_filter_ne (k k' : κ) (l : List (κ × α)) :
    lookup k' (l.filter (·.1 ≠ k)) = if k' = k then none else lookup k' l := by
  induction l with
  | nil => simp [lookup]
  | cons a rest ih =>
    obtain ⟨j, w⟩ := a
    by_cases hj : j = k
    · subst hj
      rw [List.filter_cons_of_neg (by simp)]
      simp only [lookup]
      split_ifs with h
      · rw [ih, if_pos h]
      · rw [ih, if_neg h]
    · rw [List.filter_cons_of_pos (by simpa using hj)]
      simp only [lookup]
      split_ifs with h1 h2 h2
      · exact absurd (h1.symm.trans h2) hj
      · rfl
      · rw [ih, if_pos h2]
      · rw [ih, if_neg h2]

theorem lookup_filter (hl : KeySorted l) (p : κ × α → Bool) (k : κ) :
    lookup k (l.filter p) = (lookup k l).filter fun v => p (k, v) := by
  cases h : lookup k l with
  | none =>
    rw [Option.filter_none]
    exact lookup_eq_none_iff.mpr fun a ha => lookup_eq_none_iff.mp h a (List.mem_of_mem_filter ha)
  | some v =>
    have hmem : (k, v) ∈ l := mem_of_lookup h
    by_cases hp : p (k, v) = true
    · rw [Option.filter_some, if_pos hp, lookup_eq_some_iff (hl.filter _)]
      exact List.mem_filter.mpr ⟨hmem, hp⟩
    · rw [Option.filter_some, if_neg hp]
      refine lookup_eq_none_iff.mpr fun a ha hk => ?_
      obtain ⟨hmem', hpa⟩ := List.mem_filter.mp ha
      obtain ⟨k', v'⟩ := a
      obtain rfl : k' = k := hk
      have hsame : v' = v := Option.some.inj (((lookup_eq_some_iff hl).mpr hmem').symm.trans h)
      exact hp (hsame ▸ hpa)

theorem lookup_append (k : κ) (l l' : List (κ × α)) :
    lookup k (l ++ l') = (lookup k l).or (lookup k l') := by
  induction l with
  | nil => rfl
  | cons a rest ih =>
    obtain ⟨j, w⟩ := a
    simp only [List.cons_append, lookup]
    split_ifs with h
    · rfl
    · exact ih

/-- **Binary search over sorted runs.** In a sorted list cut into runs, a key can only be in the first
run that does not end before it. -/
theorem lookup_flatMap {β : Type*} {run : β → List (κ × α)} {last : β → κ} {runs : List β}
    (hsorted : KeySorted (runs.flatMap run)) (hle : ∀ r ∈ runs, ∀ a ∈ run r, a.1 ≤ last r)
    (hlast : ∀ r ∈ runs, ∃ a ∈ run r, a.1 = last r) {reaches : β → Bool}
    (hreaches : ∀ r, reaches r = true ↔ ¬ last r < k) :
    lookup k (runs.flatMap run) = (runs.find? reaches).bind fun r => lookup k (run r) := by
  induction runs with
  | nil => rfl
  | cons r rest ih =>
    obtain ⟨-, hrest, hcross⟩ := List.pairwise_append.mp hsorted
    rw [List.flatMap_cons, lookup_append]
    by_cases hlt : last r < k
    · -- the whole run lies before the key
      have hnone : lookup k (run r) = none :=
        lookup_eq_none_iff.mpr fun a ha => ((hle r (by simp) a ha).trans_lt hlt).ne
      rw [List.find?_cons_of_neg (by simpa [hreaches] using hlt), hnone, Option.none_or]
      exact ih hrest (fun r' hr' => hle r' (by simp [hr'])) fun r' hr' => hlast r' (by simp [hr'])
    · -- everything behind the run is beyond the key
      obtain ⟨b, hb, hbk⟩ := hlast r (by simp)
      have hnone : lookup k (rest.flatMap run) = none := by
        refine lookup_eq_none_iff.mpr fun a ha => ?_
        have hba : b.1 < a.1 := hcross b hb a ha
        exact ((not_lt.mp hlt).trans_lt (hbk ▸ hba)).ne'
      rw [List.find?_cons_of_pos ((hreaches r).mpr hlt), hnone, Option.or_none]
      rfl

/-- A sorted list of entries is determined by its lookups. -/
theorem eq_of_lookup_eq {l' : List (κ × α)} (hl : KeySorted l) (hl' : KeySorted l')
    (h : ∀ k, lookup k l = lookup k l') : l = l' := by
  have hmem : ∀ a, a ∈ l ↔ a ∈ l' := by
    rintro ⟨k, v⟩
    rw [← lookup_eq_some_iff hl, ← lookup_eq_some_iff hl', h k]
  refine List.Perm.eq_of_pairwise (show ∀ a b : κ × α, a ∈ l → b ∈ l' → a.1 < b.1 → b.1 < a.1 → a = b
    from ?_) hl hl' ?_
  · intro a b _ _ hab hba
    exact absurd (hab.trans hba) (lt_irrefl _)
  · refine (List.perm_ext_iff_of_nodup ?_ ?_).mpr hmem
    · exact hl.imp fun hab => fun heq => absurd (heq ▸ hab) (lt_irrefl _)
    · exact hl'.imp fun hab => fun heq => absurd (heq ▸ hab) (lt_irrefl _)

/-! ## The map -/

/-- An ordered map: its entries carry their own order. -/
structure OrderedMap (κ α : Type*) [LinearOrder κ] where
  entries : List (κ × α)
  sorted : KeySorted entries

namespace OrderedMap

def empty : OrderedMap κ α := ⟨[], List.Pairwise.nil⟩

def find? (m : OrderedMap κ α) (k : κ) : Option α := lookup k m.entries

/-- `insert_or_assign`. -/
def insert (m : OrderedMap κ α) (k : κ) (v : α) : OrderedMap κ α :=
  ⟨insertEntry k v m.entries, m.sorted.insertEntry k v⟩

/-- `emplace`: an entry that is there already stays. -/
def emplace (m : OrderedMap κ α) (k : κ) (v : α) : OrderedMap κ α :=
  if (m.find? k).isSome then m else m.insert k v

def erase (m : OrderedMap κ α) (k : κ) : OrderedMap κ α :=
  ⟨m.entries.filter (·.1 ≠ k), m.sorted.filter _⟩

def size (m : OrderedMap κ α) : Nat := m.entries.length

@[simp] theorem find?_empty (k : κ) : (empty : OrderedMap κ α).find? k = none := rfl

theorem find?_insert (m : OrderedMap κ α) (k k' : κ) (v : α) :
    (m.insert k v).find? k' = if k' = k then some v else m.find? k' :=
  lookup_insertEntry k k' v m.entries

theorem find?_emplace (m : OrderedMap κ α) (k k' : κ) (v : α) :
    (m.emplace k v).find? k' = if k' = k then some ((m.find? k).getD v) else m.find? k' := by
  unfold emplace
  split_ifs with hk h h
  · subst h
    obtain ⟨w, hw⟩ := Option.isSome_iff_exists.mp hk
    simp [hw]
  · rfl
  · have hnone : m.find? k = none := by simpa using hk
    rw [find?_insert, if_pos h, hnone, Option.getD_none]
  · rw [find?_insert, if_neg h]

theorem find?_erase (m : OrderedMap κ α) (k k' : κ) :
    (m.erase k).find? k' = if k' = k then none else m.find? k' :=
  lookup_filter_ne k k' m.entries

theorem size_insert (m : OrderedMap κ α) (k : κ) (v : α) :
    (m.insert k v).size = if (m.find? k).isSome then m.size else m.size + 1 :=
  length_insertEntry k v m.sorted

theorem size_erase (m : OrderedMap κ α) (k : κ) :
    (m.erase k).size = if (m.find? k).isSome then m.size - 1 else m.size :=
  length_filter_ne k m.sorted

variable {m : OrderedMap κ α} {k : κ}
variable {m' : OrderedMap κ α}

theorem size_pos (h : (m.find? k).isSome) : 0 < m.size := by
  obtain ⟨v, hv⟩ := Option.isSome_iff_exists.mp h
  exact List.length_pos_of_mem (mem_of_lookup hv)

theorem mem_insert (h : a ∈ (m.insert k v).entries) : a = (k, v) ∨ a ∈ m.entries :=
  mem_insertEntry h

theorem entries_insert_ne_nil (m : OrderedMap κ α) (k : κ) (v : α) : (m.insert k v).entries ≠ [] := by
  have hfind : (m.insert k v).find? k = some v := by rw [find?_insert, if_pos rfl]
  exact List.ne_nil_of_mem (mem_of_lookup hfind)

theorem find?_eq_some_iff : m.find? k = some v ↔ (k, v) ∈ m.entries :=
  lookup_eq_some_iff m.sorted

theorem ext_entries (h : m.entries = m'.entries) : m = m' := by
  cases m
  cases m'
  cases h
  rfl

theorem ext_find? (h : ∀ k, m.find? k = m'.find? k) : m = m' :=
  ext_entries (eq_of_lookup_eq m.sorted m'.sorted h)

theorem find?_foldl_insert (hl : KeySorted l) (m : OrderedMap κ α) (k : κ) :
    (l.foldl (fun acc a => acc.insert a.1 a.2) m).find? k = (lookup k l).or (m.find? k) := by
  induction l generalizing m with
  | nil => simp [lookup]
  | cons a rest ih =>
    obtain ⟨j, w⟩ := a
    rw [List.foldl_cons, ih hl.tail, find?_insert]
    by_cases hk : k = j
    · have hnone : lookup k rest = none :=
        lookup_eq_none_iff.mpr fun b hb => by
          have hlt : j < b.1 := hl.lt_of_mem hb
          rw [hk]
          exact hlt.ne'
      simp [lookup, hk, hk ▸ hnone]
    · simp [lookup, hk]

/-- Emplacing one value under many keys gives only that value. -/
theorem find?_foldl_emplace {β : Type*} (key : β → κ) (v : α) (l : List β) (m : OrderedMap κ α)
    (hm : ∀ k w, m.find? k = some w → w = v) {w : α}
    (h : (l.foldl (fun acc b => acc.emplace (key b) v) m).find? k = some w) : w = v := by
  induction l generalizing m with
  | nil => exact hm k w h
  | cons b rest ih =>
    refine ih (m.emplace (key b) v) (fun k' w' h' => ?_) h
    rw [find?_emplace] at h'
    split_ifs at h' with hk
    · cases hf : m.find? (key b) with
      | none => simpa [hf] using h'.symm
      | some u =>
        rw [hf] at h'
        exact (Option.some.inj h').symm.trans (hm _ _ hf)
    · exact hm k' w' h'

/-- Inserting a map's entries one by one builds the map. -/
theorem foldl_insert_entries (m : OrderedMap κ α) :
    m.entries.foldl (fun acc a => acc.insert a.1 a.2) empty = m := by
  refine ext_find? fun k => ?_
  rw [find?_foldl_insert m.sorted, find?_empty, Option.or_none]
  rfl

instance [DecidableEq α] : DecidableEq (OrderedMap κ α) := fun m m' =>
  decidable_of_iff (m.entries = m'.entries) ⟨ext_entries, fun h => h ▸ rfl⟩

end OrderedMap

end Containers
