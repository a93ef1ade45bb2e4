import FioChain.ForkDatabase.Branch

/-! `controller_impl::maybe_switch_forks` over the stack of applied blocks. `apply_block`
pushes a block onto the stack or throws and leaves it, `pop_block` pops one. When a block
of the new branch fails, the recovery removes it from the fork database, pops what was
applied of the new branch, checks the head against `branches.second.back()` and applies the
old branch again. Reading `back()` of an empty vector is undefined behaviour; the model
reports it as `Fault.outOfRange`. -/

namespace Fio.Chain

/-- What `maybe_switch_forks` throws. -/
inductive Fault where
  | chain (e : Exception)
  /-- `apply_block` threw on this block. -/
  | applyFailed (id : BlockId)
  /-- `back()` of an empty branch: undefined behaviour in C++. -/
  | outOfRange
  deriving DecidableEq, Repr

/-- The controller state `maybe_switch_forks` reads and writes: the fork database, the head,
and the blocks whose undo sessions chainbase holds, newest first. -/
structure Controller where
  forkDb : ForkDatabase
  head : BlockState
  applied : List BlockState

/-- A controller operation: the state reached is kept when an exception is thrown. -/
abbrev Ctl (α : Type) := EStateM Fault Controller α

namespace Controller

/-- A fork database call made by the controller. -/
def liftForkDb {α : Type} (op : Op α) : Ctl α := fun c =>
  match op c.forkDb with
  | .ok a db => .ok a { c with forkDb := db }
  | .error e db => .error (.chain e) { c with forkDb := db }

/-- `head = b`. -/
def setHead (b : BlockState) : Ctl Unit := fun c => .ok () { c with head := b }

/-- `apply_block`, for the blocks `applies` accepts: it pushes the block, or throws and
leaves the stack as it was. -/
def applyBlock (applies : BlockState → Bool) (b : BlockState) : Ctl Unit := fun c =>
  if applies b then .ok () { c with applied := b :: c.applied }
  else .error (.applyFailed b.id) c

/-- `controller_impl::pop_block`: the head becomes its previous block, found in the index
or as the root, and the newest undo session is undone. -/
def popBlock : Ctl Unit := fun c =>
  match c.forkDb.getBlock c.head.previous with
  | some prev => .ok () { c with head := prev, applied := c.applied.tail }
  | none =>
    if c.forkDb.root.id = c.head.previous then
      .ok () { c with head := c.forkDb.root, applied := c.applied.tail }
    else .error (.chain (.blockValidateException "attempt to pop beyond last irreversible block")) c

def popBlocks : Nat → Ctl Unit
  | 0 => pure ()
  | n + 1 => do popBlock; popBlocks n

/-- The loop that applies `branches.second` again, from its end, after a failed switch. -/
def reapplyBranch (applies : BlockState → Bool) : List BlockState → Ctl Unit
  | [] => pure ()
  | b :: rest => do
    applyBlock applies b
    setHead b
    reapplyBranch applies rest

/-- The body of the `if (except)` block: `failed` threw `e` after `count` blocks of the new
branch were applied. -/
def recoverSwitch (applies : BlockState → Bool) (second : List BlockState) (failed : BlockState)
    (e : Fault) (count : Nat) : Ctl Unit := do
  liftForkDb (ForkDatabase.remove failed.id)
  popBlocks count
  match second.getLast? with
  | none => throw .outOfRange
  | some last =>
    if (← get).head.id ≠ last.previous then
      throw (.chain (.forkDatabaseException
        "loss of sync between fork_db and chainbase during fork switch reversal"))
    reapplyBranch applies second.reverse
    throw e

/-- The `try` block of the loop over `branches.first`. -/
def applyAndMark (applies : BlockState → Bool) (b : BlockState) : Ctl Unit := do
  applyBlock applies b
  liftForkDb (ForkDatabase.markValid b)
  setHead b

/-- The loop over `branches.first` from its end; `count` blocks of it are applied. -/
def switchBranch (applies : BlockState → Bool) (second : List BlockState) :
    List BlockState → Nat → Ctl Unit
  | [], _ => pure ()
  | b :: rest, count => fun c =>
    match applyAndMark applies b c with
    | .ok () c' => switchBranch applies second rest (count + 1) c'
    | .error e c' => recoverSwitch applies second b e count c'

/-- The fork switch proper, once `fetch_branch_from` returned. -/
def switchForks (applies : BlockState → Bool) (first second : List BlockState) : Ctl Unit := do
  if !second.isEmpty then
    popBlocks second.length
    match second.getLast? with
    | none => throw .outOfRange
    | some last =>
      if (← get).head.id ≠ last.previous then
        throw (.chain (.forkDatabaseException
          "loss of sync between fork_db and chainbase during fork switch"))
  switchBranch applies second first.reverse 0

/-- `controller_impl::maybe_switch_forks`, without `log_irreversible`. -/
def maybeSwitchForks (applies : BlockState → Bool) (newHead : BlockState) : Ctl Unit := fun c =>
  if newHead.previous = c.head.id then
    match applyAndMark applies newHead c with
    | .ok () c' => .ok () c'
    | .error e c' => (do liftForkDb (ForkDatabase.remove newHead.id); throw e : Ctl Unit) c'
  else if newHead.id ≠ c.head.id then
    match c.forkDb.fetchBranchFrom newHead.id c.head.id with
    | .error e => .error (.chain e) c
    | .ok (first, second) => switchForks applies first second c
  else .ok () c

variable {applies : BlockState → Bool} {c : Controller}

theorem maybeSwitchForks_of_fetchBranchFrom {newHead : BlockState} {first second : List BlockState}
    (notOnHead : newHead.previous ≠ c.head.id) (distinct : newHead.id ≠ c.head.id)
    (fetched : c.forkDb.fetchBranchFrom newHead.id c.head.id = .ok (first, second)) :
    maybeSwitchForks applies newHead c = switchForks applies first second c := by
  simp [maybeSwitchForks, notOnHead, distinct, fetched]

/-- With an empty second branch nothing is popped before the new branch is applied. -/
theorem switchForks_nil {first : List BlockState} :
    switchForks applies first [] c = switchBranch applies [] first.reverse 0 c := by
  simp [switchForks]

theorem applyAndMark_of_fails {b : BlockState} (fails : applies b = false) :
    applyAndMark applies b c = .error (.applyFailed b.id) c := by
  simp [applyAndMark, applyBlock, fails, bind, EStateM.bind]

/-- The recovery after a failure on the first block, with an empty second branch: the
block is removed, nothing is popped, and `back()` of the empty branch is read. -/
theorem recoverSwitch_nil {failed : BlockState} {e : Fault} {db : ForkDatabase}
    (removed : ForkDatabase.remove failed.id c.forkDb = .ok () db) :
    recoverSwitch applies [] failed e 0 c = .error .outOfRange { c with forkDb := db } := by
  simp [recoverSwitch, liftForkDb, removed, popBlocks, bind, EStateM.bind, pure, EStateM.pure,
    throw, throwThe, MonadExceptOf.throw, EStateM.throw]

/-- When the new head is built more than one block above the head, `fetch_branch_from`
returns an empty second branch; if the first block of the new branch then fails to apply,
and removing it from the fork database succeeds, the recovery reads `back()` of that empty
branch. -/
theorem maybeSwitchForks_outOfRange (applies : BlockState → Bool) (c : Controller)
    (newHead failed : BlockState) (first : List BlockState) (db : ForkDatabase)
    (notOnHead : newHead.previous ≠ c.head.id) (distinct : newHead.id ≠ c.head.id)
    (newHeadFound : c.forkDb.getBlockHeader newHead.id = some newHead)
    (headFound : c.forkDb.getBlockHeader c.head.id = some c.head)
    (walk : c.forkDb.walkDown c.head.blockNum newHead = .ok (first, c.head))
    (firstToApply : first.getLast? = some failed) (fails : applies failed = false)
    (removed : ForkDatabase.remove failed.id c.forkDb = .ok () db) :
    maybeSwitchForks applies newHead c = .error .outOfRange { c with forkDb := db } := by
  obtain ⟨rest, reversed⟩ : ∃ rest, first.reverse = failed :: rest := by
    cases reversed : first.reverse with
    | nil => simp_all
    | cons b rest =>
      rw [← List.head?_reverse, reversed] at firstToApply
      cases firstToApply
      exact ⟨rest, rfl⟩
  have fetched := ForkDatabase.fetchBranchFrom_of_walkDown newHeadFound headFound walk
  rw [maybeSwitchForks_of_fetchBranchFrom notOnHead distinct fetched, switchForks_nil, reversed]
  simp only [switchBranch, applyAndMark_of_fails fails]
  exact recoverSwitch_nil removed

/-- Block 1, the root and head after `reset`. -/
def rootOne : BlockState := ⟨⟨1, 0⟩, ⟨0, 0⟩, 1, 0, true, rfl, rfl⟩

/-- Block 2 on block 1, added but not validated. -/
def pendingTwo : BlockState := ⟨⟨2, 1⟩, ⟨1, 0⟩, 2, 0, false, rfl, rfl⟩

/-- Block 3 on block 2, added but not validated: the fork database's pending head. -/
def pendingThree : BlockState := ⟨⟨3, 1⟩, ⟨2, 1⟩, 3, 0, false, rfl, rfl⟩

/-- The controller at block 1 with blocks 2 and 3 waiting in the fork database, as the
startup loop finds it before it calls `maybe_switch_forks(pending_head)`. -/
def pendingSwitch : Controller :=
  { forkDb := { index := ⟨[pendingThree, pendingTwo], by decide⟩, root := rootOne, head := rootOne }
    head := rootOne, applied := [] }

/-- The fork database of `pendingSwitch` is reached by `reset` and two `add`s, and when block
2 fails to apply, switching to block 3 reads `back()` of an empty branch. -/
theorem pendingSwitch_outOfRange :
    Reachable pendingSwitch.forkDb ∧
      maybeSwitchForks (·.id != pendingTwo.id) pendingThree pendingSwitch =
        .error .outOfRange { pendingSwitch with forkDb := { pendingSwitch.forkDb with index := .empty } } := by
  have reached : Reachable pendingSwitch.forkDb :=
    .step (.add pendingThree false) (.step (.add pendingTwo false) (.reset rootOne) trivial) trivial
  have walk : pendingSwitch.forkDb.walkDown 1 pendingThree = .ok ([pendingThree, pendingTwo], rootOne) := by
    rw [ForkDatabase.walkDown_of_lt (by decide)
        (show pendingSwitch.forkDb.getBlockHeader pendingThree.previous = some pendingTwo by decide),
      ForkDatabase.walkDown_of_lt (by decide)
        (show pendingSwitch.forkDb.getBlockHeader pendingTwo.previous = some rootOne by decide),
      ForkDatabase.walkDown_of_le (by decide)]
    rfl
  exact ⟨reached, maybeSwitchForks_outOfRange _ pendingSwitch pendingThree pendingTwo _ _
    (by decide) (by decide) (by decide) (by decide) walk rfl (by decide) rfl⟩

end Controller

end Fio.Chain
