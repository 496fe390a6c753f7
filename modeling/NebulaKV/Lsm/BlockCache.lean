/-
# The block cache

`block_cache.cpp`: the data blocks read last, by table and offset. `lru` is the list, most recently
used first; `index` finds a list node by its key. A `List::iterator` is the address of a node, so a
node has an `id` here and the index maps keys to ids.

All that the readers above need is that a cache hit is a block that was PUT under that key:
`Sound cache P` says that every cached block has the property `P` of its key, and every operation
keeps it.
-/
import NebulaKV.Lsm.MemTable

namespace NebulaKV.Lsm

structure DataBlock where
  records : Snapshot
  deriving DecidableEq

structure CacheKey where
  tableId : Bytes
  blockOffset : Nat
  deriving DecidableEq

structure CacheNode where
  id : Nat
  key : CacheKey
  block : DataBlock
  charge : Nat
  deriving DecidableEq

structure BlockCache where
  capacityBytes : Nat
  lru : List CacheNode := []
  index : List (CacheKey × Nat) := []
  currentBytes : Nat := 0
  /-- The address of the next list node. -/
  nextId : Nat := 0
  deriving DecidableEq

namespace BlockCache

def create (capacityBytes : Nat) : Except Error BlockCache :=
  if capacityBytes = 0 then .error (.invalidArgument "block cache capacity must be positive")
  else .ok { capacityBytes }

/-- `sizeof(DataBlock)` and `sizeof(DataBlock::Record)`. -/
def sizeofDataBlock : Nat := 24

def sizeofRecord : Nat := 80

def estimateCharge (block : DataBlock) : Nat :=
  sizeofDataBlock + block.records.length * sizeofRecord +
    (block.records.map fun record => record.1.length + record.2.value.length).sum

/-- `index_.find`, and the node the iterator points to. -/
def locate (cache : BlockCache) (key : CacheKey) : Option CacheNode :=
  (cache.index.find? (·.1 = key)).bind fun slot => cache.lru.find? (·.id = slot.2)

def get (cache : BlockCache) (key : CacheKey) : Option DataBlock × BlockCache :=
  match cache.locate key with
  | none => (none, cache)
  | some node => (some node.block, { cache with lru := node :: cache.lru.eraseP (·.id = node.id) })

/-- Take a node out of the list and its key out of the index. -/
def drop (cache : BlockCache) (node : CacheNode) : BlockCache :=
  { cache with
    lru := cache.lru.eraseP (·.id = node.id)
    index := cache.index.filter (·.1 ≠ node.key)
    currentBytes := u64Sub cache.currentBytes node.charge }

def dropExisting (cache : BlockCache) (key : CacheKey) : BlockCache :=
  match cache.locate key with
  | none => cache
  | some node => cache.drop node

/-- Drop from the back of the list until the new charge fits; the list is empty after as many steps
as it has nodes. -/
def evictUntilFits (incomingCharge : Nat) : Nat → BlockCache → BlockCache
  | 0, cache => cache
  | steps + 1, cache =>
    match cache.lru.getLast? with
    | none => cache
    | some last =>
      if cache.currentBytes > cache.capacityBytes - incomingCharge then
        evictUntilFits incomingCharge steps (cache.drop last)
      else cache

def pushFront (cache : BlockCache) (key : CacheKey) (block : DataBlock) (charge : Nat) :
    BlockCache :=
  { cache with
    lru := ⟨cache.nextId, key, block, charge⟩ :: cache.lru
    index := if cache.index.any (·.1 = key) then cache.index else (key, cache.nextId) :: cache.index
    currentBytes := (cache.currentBytes + charge) % u64
    nextId := cache.nextId + 1 }

def put (cache : BlockCache) (key : CacheKey) (block : DataBlock) : BlockCache :=
  let charge := estimateCharge block
  let cache := cache.dropExisting key
  if charge > cache.capacityBytes then cache
  else (evictUntilFits charge cache.lru.length cache).pushFront key block charge

def clear (cache : BlockCache) : BlockCache := { cache with lru := [], index := [], currentBytes := 0 }

/-! ## A hit is a block that was put -/

/-- Every cached block has the property of its key, and the index points to nodes of its keys. -/
structure Sound (cache : BlockCache) (P : CacheKey → DataBlock → Prop) : Prop where
  blocks : ∀ node ∈ cache.lru, P node.key node.block
  keys : ∀ slot ∈ cache.index, ∀ node ∈ cache.lru, node.id = slot.2 → node.key = slot.1
  slots_lt : ∀ slot ∈ cache.index, slot.2 < cache.nextId
  nodes_lt : ∀ node ∈ cache.lru, node.id < cache.nextId

variable {cache : BlockCache} {P : CacheKey → DataBlock → Prop}

theorem locate_eq_some {key : CacheKey} {node : CacheNode} (h : cache.locate key = some node) :
    node ∈ cache.lru ∧ (key, node.id) ∈ cache.index := by
  obtain ⟨slot, hslot, hnode⟩ := Option.bind_eq_some_iff.mp h
  have hkey : slot.1 = key := by simpa using List.find?_some hslot
  have hid : node.id = slot.2 := by simpa using List.find?_some hnode
  refine ⟨List.mem_of_find?_eq_some hnode, ?_⟩
  rw [hid, ← hkey]
  exact List.mem_of_find?_eq_some hslot

section

variable (h : cache.Sound P)
include h

theorem Sound.of_sub {cache' : BlockCache} (hlru : ∀ node ∈ cache'.lru, node ∈ cache.lru)
    (hindex : ∀ slot ∈ cache'.index, slot ∈ cache.index) (hid : cache'.nextId = cache.nextId) :
    cache'.Sound P where
  blocks node hnode := h.blocks node (hlru node hnode)
  keys slot hslot node hnode := h.keys slot (hindex slot hslot) node (hlru node hnode)
  slots_lt slot hslot := hid ▸ h.slots_lt slot (hindex slot hslot)
  nodes_lt node hnode := hid ▸ h.nodes_lt node (hlru node hnode)

theorem Sound.get (key : CacheKey) :
    (cache.get key).2.Sound P ∧ ∀ block, (cache.get key).1 = some block → P key block := by
  unfold BlockCache.get
  cases hl : cache.locate key with
  | none => exact ⟨h, fun block hb => by cases hb⟩
  | some node =>
    obtain ⟨hmem, hslot⟩ := locate_eq_some hl
    refine ⟨h.of_sub (fun other hother => ?_) (fun _ hs => hs) rfl, fun block hb => ?_⟩
    · rcases List.mem_cons.mp hother with rfl | hother
      · exact hmem
      · exact List.mem_of_mem_eraseP hother
    · obtain rfl := Option.some.inj hb
      have hkey : node.key = key := h.keys _ hslot node hmem rfl
      rw [← hkey]
      exact h.blocks node hmem

theorem Sound.drop (node : CacheNode) : (cache.drop node).Sound P :=
  h.of_sub (fun _ hother => List.mem_of_mem_eraseP hother)
    (fun _ hslot => List.mem_of_mem_filter hslot) rfl

theorem Sound.dropExisting (key : CacheKey) : (cache.dropExisting key).Sound P := by
  unfold BlockCache.dropExisting
  cases cache.locate key with
  | none => exact h
  | some node => exact h.drop node

theorem Sound.evictUntilFits (incomingCharge steps : Nat) :
    (evictUntilFits incomingCharge steps cache).Sound P := by
  induction steps generalizing cache with
  | zero => exact h
  | succ steps ih =>
    unfold BlockCache.evictUntilFits
    cases cache.lru.getLast? with
    | none => exact h
    | some last =>
      dsimp only
      split_ifs
      · exact ih (h.drop last)
      · exact h

theorem Sound.pushFront {key : CacheKey} {block : DataBlock} (hP : P key block) (charge : Nat)
    : (cache.pushFront key block charge).Sound P := by
  have hindex : ∀ slot ∈ (cache.pushFront key block charge).index,
      slot = (key, cache.nextId) ∨ slot ∈ cache.index := by
    intro slot hslot
    unfold BlockCache.pushFront at hslot
    dsimp only at hslot
    split_ifs at hslot
    · exact Or.inr hslot
    · exact List.mem_cons.mp hslot
  refine ⟨?_, ?_, ?_, ?_⟩
  · exact List.forall_mem_cons.mpr ⟨hP, h.blocks⟩
  · intro slot hslot node hnode hid
    rcases List.mem_cons.mp hnode with rfl | hnode
    · -- the new node: an older slot cannot name its address
      rcases hindex slot hslot with rfl | hslot
      · rfl
      · exact absurd (h.slots_lt slot hslot) (by rw [← hid]; exact lt_irrefl _)
    · rcases hindex slot hslot with rfl | hslot
      · exact absurd (h.nodes_lt node hnode) (by rw [hid]; exact lt_irrefl _)
      · exact h.keys slot hslot node hnode hid
  · intro slot hslot
    rcases hindex slot hslot with rfl | hslot
    · exact Nat.lt_succ_self _
    · exact (h.slots_lt slot hslot).trans (Nat.lt_succ_self _)
  · exact List.forall_mem_cons.mpr
      ⟨Nat.lt_succ_self _, fun node hnode => (h.nodes_lt node hnode).trans (Nat.lt_succ_self _)⟩

theorem Sound.put {key : CacheKey} {block : DataBlock} (hP : P key block) :
    (cache.put key block).Sound P := by
  unfold BlockCache.put
  dsimp only
  split_ifs
  · exact h.dropExisting key
  · exact ((h.dropExisting key).evictUntilFits _ _).pushFront hP _

end

theorem create_sound {capacityBytes : Nat} (h : create capacityBytes = .ok cache)
    (P : CacheKey → DataBlock → Prop) : cache.Sound P := by
  unfold create at h
  split_ifs at h
  obtain rfl := Except.ok.inj h
  exact ⟨fun _ h => (by cases h), fun _ h => (by cases h), fun _ h => (by cases h),
    fun _ h => (by cases h)⟩

theorem sound_clear (cache : BlockCache) (P : CacheKey → DataBlock → Prop) : cache.clear.Sound P :=
  ⟨fun _ h => (by cases h), fun _ h => (by cases h), fun _ h => (by cases h),
    fun _ h => (by cases h)⟩

end BlockCache

end NebulaKV.Lsm
