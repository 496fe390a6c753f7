/-
# The block cache over whole traces

Any sequence of `get`, `put` and `clear`. The list, the index and the byte counter are three records of one
thing, and `Coherent` says so: the index is the list read as (key, address) pairs, no key and no address
stands twice, and the counter is the sum of the charges. Under it the index can be forgotten: a lookup is a
search of the list (`locate_eq`), dropping a node is leaving out its key (`drop_lru`), and evicting cuts the
list short at its back (`evict_lru`).

What the ORDER of the list means can only be said over a trace: `lastUse` is the place of the last `get` or
`put` of a key, and the list is sorted by it.
-/
import NebulaKV.Lsm.BlockCache
import Mathlib.Data.List.Nodup
import Mathlib.Data.List.Induction
import Mathlib.Algebra.BigOperators.Group.List.Basic

namespace NebulaKV.Lsm.BlockCache

/-! ## Traces -/

inductive Access where
  | get (key : CacheKey)
  | put (key : CacheKey) (block : DataBlock)
  | clear
  deriving DecidableEq

def Access.after (cache : BlockCache) : Access → BlockCache
  | .get key => (cache.get key).2
  | .put key block => cache.put key block
  | .clear => cache.clear

def run (cache : BlockCache) (trace : List Access) : BlockCache := trace.foldl Access.after cache

def Access.uses (key : CacheKey) : Access → Bool
  | .get other | .put other _ => other = key
  | .clear => false

def Access.putOf (key : CacheKey) : Access → Option DataBlock
  | .put other block => if other = key then some block else none
  | .get _ | .clear => none

/-- The place of the last `get` or `put` of the key, counted from one; zero when there is none. -/
def lastUse (trace : List Access) (key : CacheKey) : Nat :=
  trace.length - trace.reverse.findIdx (·.uses key)

/-- The block of the most recent `put` of the key. -/
def lastPut (trace : List Access) (key : CacheKey) : Option DataBlock :=
  trace.reverse.findSome? (·.putOf key)

variable {cache start : BlockCache} {trace : List Access} {access : Access} {key : CacheKey}
  {block : DataBlock} {node : CacheNode}
variable {lru kept : List CacheNode} {incomingCharge capacityBytes : Nat}

theorem run_snoc (cache : BlockCache) (trace : List Access) (access : Access) :
    cache.run (trace ++ [access]) = access.after (cache.run trace) := by
  unfold run
  rw [List.foldl_append, List.foldl_cons, List.foldl_nil]

theorem lastUse_le (trace : List Access) (key : CacheKey) : lastUse trace key ≤ trace.length :=
  Nat.sub_le _ _

theorem lastUse_snoc (trace : List Access) (access : Access) (key : CacheKey) :
    lastUse (trace ++ [access]) key =
      if access.uses key then trace.length + 1 else lastUse trace key := by
  unfold lastUse
  rw [List.reverse_append, List.reverse_singleton, List.singleton_append, List.findIdx_cons,
    List.length_append, List.length_singleton]
  cases access.uses key with
  | true => simp
  | false => simp

theorem lastPut_snoc (trace : List Access) (access : Access) (key : CacheKey) :
    lastPut (trace ++ [access]) key = (access.putOf key).or (lastPut trace key) := by
  unfold lastPut
  rw [List.reverse_append, List.reverse_singleton, List.singleton_append, List.findSome?_cons]
  cases access.putOf key <;> rfl

/-! ## The list, the index and the counter agree -/

structure Coherent (cache : BlockCache) : Prop where
  index : cache.index.Perm (cache.lru.map fun node => (node.key, node.id))
  keys : (cache.lru.map CacheNode.key).Nodup
  ids : (cache.lru.map CacheNode.id).Nodup
  fresh : ∀ node ∈ cache.lru, node.id < cache.nextId
  charges : ∀ node ∈ cache.lru, node.charge = estimateCharge node.block
  bytes : cache.currentBytes = (cache.lru.map CacheNode.charge).sum
  fits : cache.currentBytes ≤ cache.capacityBytes
  addressable : cache.capacityBytes < u64

theorem Coherent.eq_of_key (h : cache.Coherent) {other : CacheNode} (hnode : node ∈ cache.lru)
    (hother : other ∈ cache.lru) (hkey : other.key = node.key) : other = node :=
  List.inj_on_of_nodup_map h.keys hother hnode hkey

theorem find?_eq_some_of_unique {α : Type} {p : α → Bool} {a : α} {l : List α} (ha : a ∈ l)
    (hp : p a = true) (hunique : ∀ b ∈ l, p b = true → b = a) : l.find? p = some a := by
  cases hfind : l.find? p with
  | none => exact absurd hp (by simpa using List.find?_eq_none.mp hfind a ha)
  | some b => rw [hunique b (List.mem_of_find?_eq_some hfind) (List.find?_some hfind)]

theorem Coherent.locate_eq (h : cache.Coherent) (key : CacheKey) :
    cache.locate key = cache.lru.find? (·.key = key) := by
  unfold locate
  cases hfind : cache.lru.find? (·.key = key) with
  | none =>
    have hslots : cache.index.find? (·.1 = key) = none := by
      refine List.find?_eq_none.mpr fun slot hslot => ?_
      obtain ⟨node, hnode, rfl⟩ := List.mem_map.mp (h.index.mem_iff.mp hslot)
      exact List.find?_eq_none.mp hfind node hnode
    rw [hslots]
    rfl
  | some node =>
    have hnode := List.mem_of_find?_eq_some hfind
    have hkey : node.key = key := by simpa using List.find?_some hfind
    have hslot : cache.index.find? (·.1 = key) = some (node.key, node.id) := by
      refine find?_eq_some_of_unique (h.index.mem_iff.mpr (List.mem_map_of_mem hnode))
        (by simpa using hkey) fun slot hslot hslotKey => ?_
      obtain ⟨other, hother, rfl⟩ := List.mem_map.mp (h.index.mem_iff.mp hslot)
      have hotherKey : other.key = key := by simpa using hslotKey
      rw [h.eq_of_key hnode hother (hotherKey.trans hkey.symm)]
    rw [hslot, Option.bind_some]
    refine find?_eq_some_of_unique hnode (by simp) fun other hother hid => ?_
    exact List.inj_on_of_nodup_map h.ids hother hnode (by simpa using hid)

theorem Coherent.locate_eq_some_iff (h : cache.Coherent) :
    cache.locate key = some node ↔ node ∈ cache.lru ∧ node.key = key := by
  rw [h.locate_eq]
  constructor
  · intro hfind
    exact ⟨List.mem_of_find?_eq_some hfind, by simpa using List.find?_some hfind⟩
  · rintro ⟨hnode, rfl⟩
    exact find?_eq_some_of_unique hnode (by simp) fun other hother hkey =>
      h.eq_of_key hnode hother (by simpa using hkey)

/-- The list without the node of a key. -/
def others (cache : BlockCache) (key : CacheKey) : List CacheNode :=
  cache.lru.filter (·.key ≠ key)

theorem mem_others {other : CacheNode} :
    other ∈ cache.others key ↔ other ∈ cache.lru ∧ other.key ≠ key := by
  simp [others]

theorem others_of_absent (habsent : ∀ node ∈ cache.lru, node.key ≠ key) :
    cache.others key = cache.lru :=
  List.filter_eq_self.mpr fun node hnode => by simpa using habsent node hnode

/-- Erasing a node by its address is leaving out its key. -/
theorem eraseP_id_eq_filter (hkeys : (lru.map CacheNode.key).Nodup)
    (hids : (lru.map CacheNode.id).Nodup) (hnode : node ∈ lru) :
    lru.eraseP (·.id = node.id) = lru.filter (·.key ≠ node.key) := by
  induction lru with
  | nil => cases hnode
  | cons head rest ih =>
    rw [List.map_cons, List.nodup_cons] at hkeys hids
    rcases List.mem_cons.mp hnode with rfl | hrest
    · rw [List.eraseP_cons_of_pos (by simp), List.filter_cons_of_neg (by simp)]
      refine (List.filter_eq_self.mpr fun other hother => ?_).symm
      have : other.key ≠ node.key := fun heq => hkeys.1 (heq ▸ List.mem_map_of_mem hother)
      simpa using this
    · have hid : head.id ≠ node.id := fun heq => hids.1 (heq ▸ List.mem_map_of_mem hrest)
      have hkey : head.key ≠ node.key := fun heq => hkeys.1 (heq ▸ List.mem_map_of_mem hrest)
      rw [List.eraseP_cons_of_neg (by simpa using hid),
        List.filter_cons_of_pos (by simpa using hkey), ih hkeys.2 hids.2 hrest]

theorem perm_cons_filter_key (hkeys : (lru.map CacheNode.key).Nodup) (hnode : node ∈ lru) :
    lru.Perm (node :: lru.filter (·.key ≠ node.key)) := by
  induction lru with
  | nil => cases hnode
  | cons head rest ih =>
    rw [List.map_cons, List.nodup_cons] at hkeys
    rcases List.mem_cons.mp hnode with rfl | hrest
    · rw [List.filter_cons_of_neg (by simp), List.filter_eq_self.mpr fun other hother => ?_]
      have : other.key ≠ node.key := fun heq => hkeys.1 (heq ▸ List.mem_map_of_mem hother)
      simpa using this
    · have hkey : head.key ≠ node.key := fun heq => hkeys.1 (heq ▸ List.mem_map_of_mem hrest)
      rw [List.filter_cons_of_pos (by simpa using hkey)]
      exact ((ih hkeys.2 hrest).cons head).trans (List.Perm.swap _ _ _)

section

variable (h : cache.Coherent)
include h

theorem Coherent.eraseP_eq (hnode : node ∈ cache.lru) :
    cache.lru.eraseP (·.id = node.id) = cache.others node.key :=
  eraseP_id_eq_filter h.keys h.ids hnode

theorem Coherent.charge_add (hnode : node ∈ cache.lru) :
    cache.currentBytes = node.charge + ((cache.others node.key).map CacheNode.charge).sum := by
  rw [h.bytes, ((perm_cons_filter_key h.keys hnode).map CacheNode.charge).sum_eq]
  rfl

theorem Coherent.charge_le (hnode : node ∈ cache.lru) : node.charge ≤ cache.currentBytes := by
  rw [h.charge_add hnode]
  exact Nat.le_add_right _ _

theorem Coherent.drop_lru (hnode : node ∈ cache.lru) :
    (cache.drop node).lru = cache.others node.key :=
  h.eraseP_eq hnode

theorem Coherent.drop_bytes (hnode : node ∈ cache.lru) :
    (cache.drop node).currentBytes = cache.currentBytes - node.charge := by
  have hle := h.charge_le hnode
  have hfits := h.fits
  have hlt := h.addressable
  show u64Sub cache.currentBytes node.charge = _
  unfold u64Sub
  rw [show cache.currentBytes + u64 - node.charge = cache.currentBytes - node.charge + u64 by omega,
    Nat.add_mod_right]
  exact Nat.mod_eq_of_lt (by omega)

theorem Coherent.drop (hnode : node ∈ cache.lru) : (cache.drop node).Coherent := by
  have hlru := h.drop_lru hnode
  have hbytes := h.drop_bytes hnode
  have hsub : (cache.drop node).lru.Sublist cache.lru := hlru ▸ List.filter_sublist
  refine ⟨?_, h.keys.sublist (hsub.map _), h.ids.sublist (hsub.map _), fun other hother =>
    h.fresh other (hsub.subset hother), fun other hother => h.charges other (hsub.subset hother),
    ?_, ?_, h.addressable⟩
  · rw [hlru]
    show (cache.index.filter (·.1 ≠ node.key)).Perm _
    refine (h.index.filter _).trans (List.Perm.of_eq ?_)
    rw [List.filter_map]
    rfl
  · rw [hlru, hbytes, h.charge_add hnode, Nat.add_sub_cancel_left]
  · rw [hbytes]
    exact (Nat.sub_le _ _).trans h.fits

theorem Coherent.dropExisting (key : CacheKey) :
    (cache.dropExisting key).Coherent ∧ (cache.dropExisting key).lru = cache.others key := by
  unfold BlockCache.dropExisting
  cases hl : cache.locate key with
  | none =>
    rw [h.locate_eq] at hl
    refine ⟨h, (others_of_absent fun node hnode => ?_).symm⟩
    simpa using List.find?_eq_none.mp hl node hnode
  | some node =>
    obtain ⟨hnode, rfl⟩ := h.locate_eq_some_iff.mp hl
    exact ⟨h.drop hnode, h.drop_lru hnode⟩

end

theorem dropExisting_capacity (cache : BlockCache) (key : CacheKey) :
    (cache.dropExisting key).capacityBytes = cache.capacityBytes := by
  unfold dropExisting
  cases cache.locate key <;> rfl

/-! ## Eviction -/

section

variable (h : cache.Coherent)
include h

/-- Dropping the last node shortens the list by it. -/
theorem Coherent.drop_last {last : CacheNode} (hlast : cache.lru.getLast? = some last) :
    (cache.drop last).Coherent ∧ cache.lru = (cache.drop last).lru ++ [last] := by
  have hlru := List.dropLast_append_getLast? last hlast
  have hmem : last ∈ cache.lru := List.mem_of_getLast? hlast
  refine ⟨h.drop hmem, ?_⟩
  have hkeys := h.keys
  rw [← hlru, List.map_append, List.nodup_append] at hkeys
  have hrest : cache.others last.key = cache.lru.dropLast := by
    unfold others
    rw [← hlru, List.filter_append, List.dropLast_concat, List.filter_cons_of_neg (by simp),
      List.filter_nil, List.append_nil]
    refine List.filter_eq_self.mpr fun other hother => ?_
    have := hkeys.2.2 other.key (List.mem_map_of_mem hother) last.key (by simp)
    simpa using this
  rw [h.drop_lru hmem, hrest, hlru]

/-- Eviction keeps a front part of the list. -/
theorem Coherent.evict (incomingCharge steps : Nat) :
    (evictUntilFits incomingCharge steps cache).Coherent ∧
      (evictUntilFits incomingCharge steps cache).lru <+: cache.lru ∧
      (evictUntilFits incomingCharge steps cache).capacityBytes = cache.capacityBytes := by
  induction steps generalizing cache with
  | zero => exact ⟨h, List.prefix_refl _, rfl⟩
  | succ steps ih =>
    unfold evictUntilFits
    cases hlast : cache.lru.getLast? with
    | none => exact ⟨h, List.prefix_refl _, rfl⟩
    | some last =>
      dsimp only
      split_ifs
      · obtain ⟨hdrop, hlru⟩ := h.drop_last hlast
        obtain ⟨hcoherent, hfront, hcapacity⟩ := ih hdrop
        refine ⟨hcoherent, hfront.trans ?_, hcapacity⟩
        exact hlru ▸ List.prefix_append _ _
      · exact ⟨h, List.prefix_refl _, rfl⟩

/-- As many rounds as there are nodes end the loop: its condition is false then. -/
theorem Coherent.evict_done (incomingCharge : Nat) {steps : Nat}
    (hsteps : cache.lru.length ≤ steps) :
    (evictUntilFits incomingCharge steps cache).lru = [] ∨
      (evictUntilFits incomingCharge steps cache).currentBytes ≤
        cache.capacityBytes - incomingCharge := by
  induction steps generalizing cache with
  | zero => exact Or.inl (List.length_eq_zero_iff.mp (Nat.le_zero.mp hsteps))
  | succ steps ih =>
    unfold evictUntilFits
    cases hlast : cache.lru.getLast? with
    | none => exact Or.inl (List.getLast?_eq_none_iff.mp hlast)
    | some last =>
      dsimp only
      split_ifs with hover
      · obtain ⟨hdrop, hlru⟩ := h.drop_last hlast
        refine ih hdrop ?_
        rw [hlru, List.length_append, List.length_singleton] at hsteps
        omega
      · exact Or.inr (not_lt.mp hover)

/-- Rounds beyond those change nothing. -/
theorem Coherent.evict_steps {steps : Nat} (hsteps : cache.lru.length ≤ steps) :
    evictUntilFits incomingCharge steps cache =
      evictUntilFits incomingCharge cache.lru.length cache := by
  induction steps generalizing cache with
  | zero => rw [Nat.le_zero.mp hsteps]
  | succ steps ih =>
    cases hlast : cache.lru.getLast? with
    | none =>
      rw [List.getLast?_eq_none_iff.mp hlast, List.length_nil]
      unfold evictUntilFits
      rw [hlast]
    | some last =>
      obtain ⟨hdrop, hlru⟩ := h.drop_last hlast
      have hlength : cache.lru.length = (cache.drop last).lru.length + 1 := by
        conv_lhs => rw [hlru, List.length_append, List.length_singleton]
      rw [hlength]
      unfold evictUntilFits
      rw [hlast]
      dsimp only
      rw [ih hdrop (by omega)]

/-- After the eviction there is room for the new charge. -/
theorem Coherent.evict_room (hcharge : incomingCharge ≤ cache.capacityBytes) :
    (evictUntilFits incomingCharge cache.lru.length cache).currentBytes + incomingCharge ≤
      cache.capacityBytes := by
  rcases h.evict_done incomingCharge (le_refl cache.lru.length) with hnil | hle
  · rw [(h.evict incomingCharge cache.lru.length).1.bytes, hnil]
    simpa using hcharge
  · omega

theorem Coherent.pushFront (hkey : ∀ node ∈ cache.lru, node.key ≠ key)
    (hroom : cache.currentBytes + estimateCharge block ≤ cache.capacityBytes) :
    (cache.pushFront key block (estimateCharge block)).Coherent := by
  have hlt := h.addressable
  have habsent : cache.index.any (·.1 = key) = false := by
    rw [List.any_eq_false]
    intro slot hslot
    obtain ⟨node, hnode, rfl⟩ := List.mem_map.mp (h.index.mem_iff.mp hslot)
    simpa using hkey node hnode
  have hbytes : (cache.currentBytes + estimateCharge block) % u64 =
      cache.currentBytes + estimateCharge block := Nat.mod_eq_of_lt (by omega)
  refine ⟨?_, ?_, ?_, ?_, ?_, ?_, ?_, hlt⟩
  · show (if cache.index.any (·.1 = key) then cache.index
      else (key, cache.nextId) :: cache.index).Perm _
    rw [habsent]
    exact h.index.cons (key, cache.nextId)
  · refine List.nodup_cons.mpr ⟨fun hmem => ?_, h.keys⟩
    obtain ⟨node, hnode, heq⟩ := List.mem_map.mp hmem
    exact hkey node hnode heq
  · -- the new address is above all that are in use
    refine List.nodup_cons.mpr ⟨fun hmem => ?_, h.ids⟩
    obtain ⟨node, hnode, heq⟩ := List.mem_map.mp hmem
    exact (h.fresh node hnode).ne heq
  · exact List.forall_mem_cons.mpr
      ⟨Nat.lt_succ_self _, fun node hnode => (h.fresh node hnode).trans (Nat.lt_succ_self _)⟩
  · exact List.forall_mem_cons.mpr ⟨rfl, h.charges⟩
  · show (cache.currentBytes + estimateCharge block) % u64 = _
    rw [hbytes, h.bytes, Nat.add_comm]
    rfl
  · show (cache.currentBytes + estimateCharge block) % u64 ≤ cache.capacityBytes
    rw [hbytes]
    exact hroom

/-! ## What an access leaves -/

theorem Coherent.get (key : CacheKey) :
    (cache.get key).2.Coherent ∧
      ((cache.get key).1 = none ∧ (cache.get key).2.lru = cache.others key ∨
        ∃ node ∈ cache.lru, node.key = key ∧ (cache.get key).1 = some node.block ∧
          (cache.get key).2.lru = node :: cache.others key) := by
  unfold BlockCache.get
  cases hl : cache.locate key with
  | none =>
    rw [h.locate_eq] at hl
    refine ⟨h, Or.inl ⟨rfl, (others_of_absent fun node hnode => ?_).symm⟩⟩
    simpa using List.find?_eq_none.mp hl node hnode
  | some node =>
    obtain ⟨hnode, rfl⟩ := h.locate_eq_some_iff.mp hl
    have hlru : node :: cache.lru.eraseP (·.id = node.id) = node :: cache.others node.key := by
      rw [h.eraseP_eq hnode]
    have hperm : cache.lru.Perm (node :: cache.lru.eraseP (·.id = node.id)) :=
      hlru ▸ perm_cons_filter_key h.keys hnode
    refine ⟨⟨h.index.trans (hperm.map _), (hperm.map _).nodup_iff.mp h.keys,
      (hperm.map _).nodup_iff.mp h.ids, fun other hother => h.fresh other (hperm.mem_iff.mpr hother),
      fun other hother => h.charges other (hperm.mem_iff.mpr hother),
      h.bytes.trans (hperm.map _).sum_eq, h.fits, h.addressable⟩,
      Or.inr ⟨node, hnode, rfl, rfl, hlru⟩⟩

/-- A `put` keeps a front part of the other nodes, and puts the new one before it unless it is larger
than the whole cache; then all others stay. -/
theorem Coherent.put (key : CacheKey) (block : DataBlock) :
    (cache.put key block).Coherent ∧
      ((cache.put key block).lru = cache.others key ∨
        ∃ node kept, node.key = key ∧ node.block = block ∧ kept <+: cache.others key ∧
          (cache.put key block).lru = node :: kept) := by
  obtain ⟨hdrop, hlru⟩ := h.dropExisting key
  unfold BlockCache.put
  dsimp only
  split_ifs with hcharge
  · exact ⟨hdrop, Or.inl hlru⟩
  · obtain ⟨hevict, hfront, hcapacity⟩ :=
      hdrop.evict (estimateCharge block) (cache.dropExisting key).lru.length
    refine ⟨hevict.pushFront (fun node hnode => ?_) ?_, Or.inr ⟨_, _, rfl, rfl, hlru ▸ hfront, rfl⟩⟩
    · exact (mem_others.mp (hlru ▸ hfront.subset hnode)).2
    · rw [hcapacity]
      exact hdrop.evict_room (not_lt.mp hcharge)

theorem coherent_clear : cache.clear.Coherent :=
  ⟨List.Perm.refl _, List.nodup_nil, List.nodup_nil, fun _ hnode => (by cases hnode),
    fun _ hnode => (by cases hnode), rfl, Nat.zero_le _, h.addressable⟩

end

/-! ## The list is in order of use -/

/-- What a trace leaves: the list in order of use, with the block of the last `put` at each key. -/
structure Tracks (cache : BlockCache) (trace : List Access) : Prop where
  coherent : cache.Coherent
  recency : cache.lru.Pairwise fun a b => lastUse trace b.key < lastUse trace a.key
  blocks : ∀ node ∈ cache.lru, lastPut trace node.key = some node.block

theorem Tracks.create (h : create capacityBytes = .ok start) (hcapacity : capacityBytes < u64) :
    start.Tracks [] := by
  unfold BlockCache.create at h
  split_ifs at h
  obtain rfl := Except.ok.inj h
  exact ⟨⟨List.Perm.refl _, List.nodup_nil, List.nodup_nil, fun _ hnode => (by cases hnode),
    fun _ hnode => (by cases hnode), rfl, Nat.zero_le _, hcapacity⟩, List.Pairwise.nil,
    fun _ hnode => (by cases hnode)⟩

/-- An access to one key moves no other. -/
theorem lastUse_other (huses : ∀ other, access.uses other = true ↔ other = key) {other : CacheKey}
    (hother : other ≠ key) : lastUse (trace ++ [access]) other = lastUse trace other := by
  rw [lastUse_snoc, if_neg (fun h => hother ((huses other).mp h))]

theorem lastUse_self (huses : ∀ other, access.uses other = true ↔ other = key) :
    lastUse (trace ++ [access]) key = trace.length + 1 := by
  rw [lastUse_snoc, if_pos ((huses key).mpr rfl)]

theorem Tracks.recency_kept (h : cache.Tracks trace)
    (huses : ∀ other, access.uses other = true ↔ other = key)
    (hkept : kept.Sublist (cache.others key)) :
    kept.Pairwise fun a b =>
      lastUse (trace ++ [access]) b.key < lastUse (trace ++ [access]) a.key := by
  refine (h.recency.sublist (hkept.trans List.filter_sublist)).imp_of_mem fun ha hb hlt => ?_
  rw [lastUse_other huses (mem_others.mp (hkept.subset ha)).2,
    lastUse_other huses (mem_others.mp (hkept.subset hb)).2]
  exact hlt

theorem Tracks.recency_front (h : cache.Tracks trace)
    (huses : ∀ other, access.uses other = true ↔ other = key) (hnode : node.key = key)
    (hkept : kept.Sublist (cache.others key)) :
    (node :: kept).Pairwise fun a b =>
      lastUse (trace ++ [access]) b.key < lastUse (trace ++ [access]) a.key := by
  refine List.pairwise_cons.mpr ⟨fun other hother => ?_, h.recency_kept huses hkept⟩
  rw [hnode, lastUse_self huses, lastUse_other huses (mem_others.mp (hkept.subset hother)).2]
  exact Nat.lt_succ_of_le (lastUse_le trace _)

theorem Access.uses_get (key other : CacheKey) :
    (Access.get key).uses other = true ↔ other = key := by
  simp [Access.uses, eq_comm]

theorem Access.uses_put (key : CacheKey) (block : DataBlock) (other : CacheKey) :
    (Access.put key block).uses other = true ↔ other = key := by
  simp [Access.uses, eq_comm]

theorem Tracks.get (h : cache.Tracks trace) (key : CacheKey) :
    (cache.get key).2.Tracks (trace ++ [.get key]) := by
  obtain ⟨hcoherent, hlru⟩ := h.coherent.get key
  have hput (other : CacheKey) : lastPut (trace ++ [.get key]) other = lastPut trace other :=
    lastPut_snoc trace _ other
  have hothers : ∀ node ∈ cache.others key, lastPut (trace ++ [.get key]) node.key = some node.block :=
    fun node hnode => (hput _).trans (h.blocks node (mem_others.mp hnode).1)
  rcases hlru with ⟨-, hlru⟩ | ⟨node, hnode, hkey, -, hlru⟩
  · refine ⟨hcoherent, ?_, ?_⟩
    · exact hlru ▸ h.recency_kept (Access.uses_get key) (List.Sublist.refl _)
    · exact hlru ▸ hothers
  · refine ⟨hcoherent, ?_, ?_⟩
    · exact hlru ▸ h.recency_front (Access.uses_get key) hkey (List.Sublist.refl _)
    · rw [hlru]
      exact List.forall_mem_cons.mpr ⟨(hput _).trans (h.blocks node hnode), hothers⟩

theorem Tracks.put (h : cache.Tracks trace) (key : CacheKey) (block : DataBlock) :
    (cache.put key block).Tracks (trace ++ [.put key block]) := by
  obtain ⟨hcoherent, hlru⟩ := h.coherent.put key block
  have hothers : ∀ node ∈ cache.others key,
      lastPut (trace ++ [.put key block]) node.key = some node.block := by
    intro node hnode
    obtain ⟨hmem, hne⟩ := mem_others.mp hnode
    rw [lastPut_snoc]
    simp [Access.putOf, Ne.symm hne, h.blocks node hmem]
  rcases hlru with hlru | ⟨node, kept, hkey, hblock, hfront, hlru⟩
  · refine ⟨hcoherent, ?_, ?_⟩
    · exact hlru ▸ h.recency_kept (Access.uses_put key block) (List.Sublist.refl _)
    · exact hlru ▸ hothers
  · refine ⟨hcoherent, ?_, ?_⟩
    · exact hlru ▸ h.recency_front (Access.uses_put key block) hkey hfront.sublist
    · rw [hlru]
      refine List.forall_mem_cons.mpr ⟨?_, fun other hother => hothers other (hfront.subset hother)⟩
      rw [lastPut_snoc, hkey, hblock]
      simp [Access.putOf]

theorem Tracks.after (h : cache.Tracks trace) (access : Access) :
    (access.after cache).Tracks (trace ++ [access]) := by
  cases access with
  | get key => exact h.get key
  | put key block => exact h.put key block
  | clear =>
    exact ⟨coherent_clear h.coherent, List.Pairwise.nil, fun _ hnode => (by cases hnode)⟩

theorem Tracks.run (h : BlockCache.create capacityBytes = .ok start)
    (hcapacity : capacityBytes < u64) (trace : List Access) : (start.run trace).Tracks trace := by
  induction trace using List.reverseRecOn with
  | nil => exact Tracks.create h hcapacity
  | append_singleton trace access ih =>
    rw [run_snoc]
    exact ih.after access

/-- What one `put` throws out was used before all that it leaves. -/
theorem Tracks.evicts_oldest (h : cache.Tracks trace) (key : CacheKey) (block : DataBlock)
    {gone kept : CacheNode} (hgone : gone ∈ cache.lru) (hkey : gone.key ≠ key)
    (hevicted : gone.key ∉ (cache.put key block).lru.map CacheNode.key)
    (hkept : kept ∈ (cache.put key block).lru) :
    lastUse (trace ++ [.put key block]) gone.key < lastUse (trace ++ [.put key block]) kept.key := by
  obtain ⟨-, hlru⟩ := h.coherent.put key block
  have hother : gone ∈ cache.others key := mem_others.mpr ⟨hgone, hkey⟩
  rcases hlru with hlru | ⟨node, front, hnode, -, ⟨back, hback⟩, hlru⟩
  · exact absurd (List.mem_map_of_mem (hlru ▸ hother)) hevicted
  · -- all others in their order are the front part that stays and the back part that goes
    have horder := h.recency_front (Access.uses_put key block) hnode (List.Sublist.refl _)
    rw [← hback, ← List.cons_append, List.pairwise_append] at horder
    refine horder.2.2 kept (hlru ▸ hkept) gone ?_
    rw [← hback, List.mem_append] at hother
    refine hother.resolve_left fun hfront => hevicted ?_
    exact List.mem_map_of_mem (hlru ▸ List.mem_cons_of_mem _ hfront)

/-! ## The invariant -/

/-- What holds of a cache after a trace, whatever is asked of it next. -/
structure Invariant (cache : BlockCache) (trace : List Access) : Prop where
  /-- The index and the list hold the same keys, each once, and the index points to the key's node. -/
  same_keys : (cache.index.map Prod.fst).Perm (cache.lru.map CacheNode.key)
  distinct : (cache.lru.map CacheNode.key).Nodup
  points : ∀ node ∈ cache.lru, cache.locate node.key = some node
  charges : ∀ node ∈ cache.lru, node.charge = estimateCharge node.block
  bytes : cache.currentBytes = (cache.lru.map CacheNode.charge).sum
  fits : cache.currentBytes ≤ cache.capacityBytes
  /-- The three subtractions: the replaced node's charge, the incoming charge from the capacity (it is only
  made when the block is not larger than the cache), the evicted node's charge in every round. -/
  replaced : ∀ key node, cache.locate key = some node → node.charge ≤ cache.currentBytes
  evicted : ∀ key block, estimateCharge block ≤ cache.capacityBytes → ∀ steps last,
    (evictUntilFits (estimateCharge block) steps (cache.dropExisting key)).lru.getLast? = some last →
    last.charge ≤
      (evictUntilFits (estimateCharge block) steps (cache.dropExisting key)).currentBytes
  /-- The loop is over after as many rounds as there are nodes: its condition is false then, and more rounds
  change nothing. -/
  terminates : ∀ key block, estimateCharge block ≤ cache.capacityBytes → ∀ steps,
    (cache.dropExisting key).lru.length ≤ steps →
    evictUntilFits (estimateCharge block) steps (cache.dropExisting key) =
      evictUntilFits (estimateCharge block) (cache.dropExisting key).lru.length
        (cache.dropExisting key) ∧
    ((evictUntilFits (estimateCharge block) steps (cache.dropExisting key)).lru = [] ∨
      (evictUntilFits (estimateCharge block) steps (cache.dropExisting key)).currentBytes ≤
        cache.capacityBytes - estimateCharge block)
  hit : ∀ key block, (cache.get key).1 = some block → lastPut trace key = some block
  oldest : ∀ key block, ∀ gone ∈ cache.lru, gone.key ≠ key →
    gone.key ∉ (cache.put key block).lru.map CacheNode.key → ∀ kept ∈ (cache.put key block).lru,
    lastUse (trace ++ [.put key block]) gone.key < lastUse (trace ++ [.put key block]) kept.key

theorem cache_invariant {capacityBytes : Nat} (h : create capacityBytes = .ok start)
    (hcapacity : capacityBytes < u64) (trace : List Access) :
    Invariant (start.run trace) trace := by
  have htracks := Tracks.run h hcapacity trace
  have hcoherent := htracks.coherent
  refine ⟨?_, hcoherent.keys, ?_, hcoherent.charges, hcoherent.bytes, hcoherent.fits, ?_, ?_, ?_, ?_, ?_⟩
  · have := hcoherent.index.map Prod.fst
    rwa [List.map_map] at this
  · intro node hnode
    exact hcoherent.locate_eq_some_iff.mpr ⟨hnode, rfl⟩
  · intro key node hnode
    exact hcoherent.charge_le (hcoherent.locate_eq_some_iff.mp hnode).1
  · intro key block _ steps last hlast
    have hevict := ((hcoherent.dropExisting key).1.evict (estimateCharge block) steps).1
    exact hevict.charge_le (List.mem_of_getLast? hlast)
  · intro key block _ steps hsteps
    have hdrop := (hcoherent.dropExisting key).1
    refine ⟨hdrop.evict_steps hsteps, ?_⟩
    have := hdrop.evict_done (estimateCharge block) hsteps
    rwa [dropExisting_capacity] at this
  · intro key block hblock
    rcases (hcoherent.get key).2 with ⟨hnone, -⟩ | ⟨node, hnode, rfl, hsome, -⟩
    · rw [hnone] at hblock
      cases hblock
    · rw [hsome] at hblock
      exact Option.some.inj hblock ▸ htracks.blocks node hnode
  · intro key block gone hgone hkey hevicted kept hkept
    exact htracks.evicts_oldest key block hgone hkey hevicted hkept

/-- A cache with room for two empty blocks: the third `put` evicts the one that was not read since. -/
theorem cache_invariant_three :
    Invariant (run { capacityBytes := 50 } [.put ⟨[1], 0⟩ ⟨[]⟩, .put ⟨[2], 0⟩ ⟨[]⟩, .get ⟨[1], 0⟩,
        .put ⟨[3], 0⟩ ⟨[]⟩])
      [.put ⟨[1], 0⟩ ⟨[]⟩, .put ⟨[2], 0⟩ ⟨[]⟩, .get ⟨[1], 0⟩, .put ⟨[3], 0⟩ ⟨[]⟩] ∧
    (run { capacityBytes := 50 } [.put ⟨[1], 0⟩ ⟨[]⟩, .put ⟨[2], 0⟩ ⟨[]⟩, .get ⟨[1], 0⟩,
        .put ⟨[3], 0⟩ ⟨[]⟩]).lru.map CacheNode.key = [⟨[3], 0⟩, ⟨[1], 0⟩] :=
  ⟨@cache_invariant { capacityBytes := 50 } 50 rfl (by decide) _, by decide⟩

end NebulaKV.Lsm.BlockCache
