import FioChain.Types

/-! Block states and the fork database of `fork_database.cpp`: the id-keyed block
index with its root and head, and the mutators `reset`, `add`, `mark_valid`, `remove`,
`rollback_head_to_root` and `advance_root`. Each mutator is a state transformer whose
exceptions keep the state reached at the throw, as C++ exceptions do. Ids are opaque
digests that carry their block number, as `block_header::id` writes it. -/

namespace Fio.Chain

/-- `block_id_type`. `block_header::id` stores the block number in the first word of
the header digest and `num_from_id` reads it back; the rest of the digest is opaque. -/
structure BlockId where
  num : Nat
  digest : Nat
  deriving DecidableEq, Repr

/-- `sha256_less` compares ids word by word; the model orders them by digest, then by
number. Only the tie-break between equally preferred blocks depends on it. -/
instance : LinearOrder BlockId :=
  LinearOrder.lift' (fun b => toLex (b.digest, b.num)) fun a b same => by
    cases a; cases b
    simp only [toLex_inj, Prod.mk.injEq] at same
    simp only [same]

/-- The fields of `block_state` that the fork database reads. `block_num` is the number
written into `id`, and one more than the number in `header.previous`: the numbers are taken
below the `uint32_t` wrap, where `block_num()` of the block after `2 ^ 32 - 1` would be `0`. -/
structure BlockState where
  id : BlockId
  previous : BlockId
  blockNum : Nat
  dposIrreversibleBlocknum : Nat
  validated : Bool
  id_num : id.num = blockNum
  previous_num : previous.num + 1 = blockNum
  deriving DecidableEq

/-- `first_preferred`: `tie(lib, block_num)` compared lexicographically. -/
def firstPreferred (lhs rhs : BlockState) : Bool :=
  rhs.dposIrreversibleBlocknum < lhs.dposIrreversibleBlocknum ||
    (lhs.dposIrreversibleBlocknum == rhs.dposIrreversibleBlocknum && rhs.blockNum < lhs.blockNum)

/-- The `by_lib_block_num` composite key, as an order whose greatest element is the
index's `begin()`: validated first, then the higher irreversible number, the higher
block number, and the lower id. -/
def libBlockNumKey (b : BlockState) : Bool ×ₗ Nat ×ₗ Nat ×ₗ BlockIdᵒᵈ :=
  toLex (b.validated, toLex (b.dposIrreversibleBlocknum, toLex (b.blockNum, OrderDual.toDual b.id)))

/-- `fork_multi_index_type`: block states with pairwise distinct ids, since
`by_block_id` is `hashed_unique`. The list order is the model's insertion order. -/
structure BlockIndex where
  blocks : List BlockState
  nodup : (blocks.map BlockState.id).Nodup

namespace BlockIndex

def empty : BlockIndex := ⟨[], List.nodup_nil⟩

/-- `index.find(id)`. -/
def find (index : BlockIndex) (id : BlockId) : Option BlockState :=
  index.blocks.find? (·.id == id)

/-- `index.insert(n)`, refused when a block with the same id is present. -/
def insert (index : BlockIndex) (n : BlockState) : Option BlockIndex :=
  if fresh : n.id ∈ index.blocks.map BlockState.id then none
  else some ⟨n :: index.blocks, List.nodup_cons.mpr ⟨fresh, index.nodup⟩⟩

/-- `index.erase(index.find(id))`; nothing happens when the id is absent. -/
def erase (index : BlockIndex) (id : BlockId) : BlockIndex :=
  ⟨index.blocks.filter (·.id != id), index.nodup.sublist (List.filter_sublist.map _)⟩

theorem map_id_setValidated (blocks : List BlockState) (select : BlockState → Bool) (v : Bool) :
    (blocks.map fun b => if select b then { b with validated := v } else b).map BlockState.id =
      blocks.map BlockState.id := by
  induction blocks with
  | nil => rfl
  | cons b rest ih =>
    simp only [List.map_cons, ih, List.cons.injEq, and_true]
    split <;> rfl

/-- `by_id_idx.modify(itr, [](auto &bsp) { bsp->validated = v; })` on every selected block. -/
def setValidated (index : BlockIndex) (select : BlockState → Bool) (v : Bool) : BlockIndex :=
  ⟨index.blocks.map fun b => if select b then { b with validated := v } else b,
    by rw [map_id_setValidated]; exact index.nodup⟩

/-- `index.get<by_lib_block_num>().begin()`. -/
def front (index : BlockIndex) : Option BlockState :=
  index.blocks.argmax libBlockNumKey

/-- The ids met by walking `index.get<by_prev>()` from `lower_bound(id)` while
`header.previous == id`: the blocks built directly on `id`. -/
def children (index : BlockIndex) (id : BlockId) : List BlockId :=
  (index.blocks.filter (·.previous == id)).map BlockState.id

end BlockIndex

/-- `fork_database_impl`: the index, the root and the head. The model starts at the first
`reset`, so the root is always set. -/
structure ForkDatabase where
  index : BlockIndex
  root : BlockState
  head : BlockState

/-- A fork database operation: the state reached is kept when an exception is thrown. -/
abbrev Op (α : Type) := EStateM Exception ForkDatabase α

namespace ForkDatabase

/-- `fork_database::get_block`. -/
def getBlock (db : ForkDatabase) (id : BlockId) : Option BlockState :=
  db.index.find id

/-- `fork_database::get_block_header`: the root first, then the index. -/
def getBlockHeader (db : ForkDatabase) (id : BlockId) : Option BlockState :=
  if db.root.id = id then some db.root else db.index.find id

/-- `fork_database::reset`: an empty index under a validated root, which is also the head. -/
def reset (rootBhs : BlockState) : ForkDatabase :=
  let root := { rootBhs with validated := true }
  { index := .empty, root := root, head := root }

/-- `fork_database::rollback_head_to_root`. -/
def rollbackHeadToRoot : Op Unit := fun db =>
  .ok () { db with index := db.index.setValidated (fun _ => true) false, head := db.root }

/-- The head chosen after the index changed: `begin()` of `by_lib_block_num` when
`pick` accepts it, the old head otherwise. -/
def chooseHead (index : BlockIndex) (head : BlockState) (pick : BlockState → Bool) :
    BlockState :=
  match index.front with
  | some candidate => if pick candidate then candidate else head
  | none => head

/-- `fork_database_impl::add` as `fork_database::add` calls it, without the validator. -/
def add (n : BlockState) (ignoreDuplicate : Bool) : Op Unit := fun db =>
  if (db.getBlockHeader n.previous).isNone then
    .error (.unlinkableBlockException "unlinkable block") db
  else
    match db.index.insert n with
    | none =>
      if ignoreDuplicate then .ok () db
      else .error (.forkDatabaseException "duplicate block added") db
    | some index =>
      .ok () { db with index := index, head := chooseHead index db.head (·.validated) }

/-- `fork_database::mark_valid`. -/
def markValid (h : BlockState) : Op Unit := fun db =>
  if h.validated then .ok () db
  else if (db.index.find h.id).isNone then
    .error (.forkDatabaseException "block state not in fork database; cannot mark as valid") db
  else
    let index := db.index.setValidated (·.id == h.id) true
    .ok () { db with index := index, head := chooseHead index db.head (firstPreferred · db.head) }

/-- The breadth-first loop of `fork_database::remove`. `done` holds `remove_queue[0, i)`
and `queue` holds `remove_queue[i, size)`; one round checks `remove_queue[i]` against the
head and queues the blocks built on it. `fuel` bounds the rounds by the queue length the
index allows. -/
def removeQueue (index : BlockIndex) (headId : BlockId) :
    Nat → List BlockId → List BlockId → Except Exception (List BlockId)
  | _, done, [] => .ok done
  | 0, _, _ :: _ => .error .nonTermination
  | fuel + 1, done, id :: queue =>
    if id = headId then
      .error (.forkDatabaseException
        "removing the block and its descendants would remove the current head block")
    else removeQueue index headId fuel (done ++ [id]) (queue ++ index.children id)

/-- `fork_database::remove`: the block `id` and every block built on it, unless the head
is among them. -/
def remove (id : BlockId) : Op Unit := fun db =>
  match removeQueue db.index db.head.id (db.index.blocks.length + 1) [] [id] with
  | .error e => .error e db
  | .ok removed =>
    .ok () { db with index := removed.foldl BlockIndex.erase db.index }

/-- The loop of `advance_root` collecting `header.previous` from the new root down to the
root. It throws when a link leaves the index anywhere but at the root. -/
def blocksToRemove (db : ForkDatabase) (b : BlockState) : Except Exception (List BlockId) :=
  match _found : db.getBlock b.previous with
  | none =>
    if b.previous = db.root.id then .ok [b.previous]
    else .error (.forkDatabaseException
      "invariant violation: orphaned branch was present in forked database")
  | some parent => (blocksToRemove db parent).map (b.previous :: ·)
termination_by b.blockNum
decreasing_by
  have parentId : parent.id = b.previous := by
    simpa [getBlock, BlockIndex.find] using List.find?_some _found
  have := congrArg BlockId.num parentId
  have := parent.id_num
  have := b.previous_num
  omega

/-- `remove(block_id)` for every collected id, in order. -/
def removeEach : List BlockId → Op Unit
  | [] => fun db => .ok () db
  | id :: rest => fun db =>
    match remove id db with
    | .ok () db' => removeEach rest db'
    | .error e db' => .error e db'

/-- `fork_database::advance_root`. The new root leaves the index on its own, so that the
blocks built on it stay; the ancestors are then removed with their other branches. -/
def advanceRoot (id : BlockId) : Op Unit := fun db =>
  match db.getBlock id with
  | none => .error (.forkDatabaseException
      "cannot advance root to a block that does not exist in the fork database") db
  | some newRoot =>
    if !newRoot.validated then
      .error (.forkDatabaseException
        "cannot advance root to a block that has not yet been validated") db
    else
      match blocksToRemove db newRoot with
      | .error e => .error e db
      | .ok ids =>
        match removeEach ids { db with index := db.index.erase id } with
        | .ok () db' => .ok () { db' with root := newRoot }
        | .error e db' => .error e db'

end ForkDatabase

end Fio.Chain
