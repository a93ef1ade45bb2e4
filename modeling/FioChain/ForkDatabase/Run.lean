import FioChain.ForkDatabase.AdvanceRoot

/-! Runs of the fork database from `reset`: any sequence of `add`, `mark_valid`, `remove`,
`rollback_head_to_root` and `advance_root`, where the controller only advances the root to
a validated block at or below the head. An operation that throws keeps the state it
reached, so the run goes on from there. Every state of a run satisfies `Inv`, and from
every indexed block the `previous` links lead down to the root. -/

namespace Fio.Chain

/-- The mutators of `fork_database`. -/
inductive Operation where
  | add (n : BlockState) (ignoreDuplicate : Bool)
  | markValid (h : BlockState)
  | remove (id : BlockId)
  | rollbackHeadToRoot
  | advanceRoot (id : BlockId)

namespace Operation

def run : Operation → Op Unit
  | add n ignoreDuplicate => ForkDatabase.add n ignoreDuplicate
  | markValid h => ForkDatabase.markValid h
  | remove id => ForkDatabase.remove id
  | rollbackHeadToRoot => ForkDatabase.rollbackHeadToRoot
  | advanceRoot id => ForkDatabase.advanceRoot id

/-- The calls the controller makes: `advance_root` only to a validated block that is the
head or one of the head's ancestors. -/
def Allowed (db : ForkDatabase) : Operation → Prop
  | advanceRoot id => ∃ newRoot, db.getBlock id = some newRoot ∧ newRoot.validated = true ∧
      (id = db.head.id ∨ id ∈ ancestry db.index db.head)
  | _ => True

end Operation

/-- The state an operation leaves, whether it returned or threw. -/
def stateAfter {α : Type} : EStateM.Result Exception ForkDatabase α → ForkDatabase
  | .ok _ db => db
  | .error _ db => db

/-- The states of the fork database along runs from `reset`. -/
inductive Reachable : ForkDatabase → Prop
  | reset (rootBhs : BlockState) : Reachable (ForkDatabase.reset rootBhs)
  | step {db : ForkDatabase} (op : Operation) (reached : Reachable db) (allowed : op.Allowed db) :
      Reachable (stateAfter (op.run db))

namespace Operation

open ForkDatabase

variable {db : ForkDatabase} {op : Operation}

/-- An allowed `advance_root` returns normally on a state satisfying the invariant. -/
theorem advanceRoot_returns {id : BlockId} (inv : db.Inv) (allowed : (advanceRoot id).Allowed db) :
    ∃ db', ForkDatabase.advanceRoot id db = .ok () db' := by
  obtain ⟨newRoot, found, valid, atOrBelowHead⟩ := allowed
  exact inv.advanceRoot_succeeds found valid atOrBelowHead

/-- A mutator that keeps the invariant on a normal return and the state on a throw keeps
the invariant in both cases. -/
theorem inv_stateAfter_of {m : Op Unit} (inv : db.Inv)
    (returned : ∀ db', m db = .ok () db' → db'.Inv) (threw : ∀ e db', m db = .error e db' → db' = db) :
    (stateAfter (m db)).Inv := by
  cases result : m db with
  | ok _ db' => exact returned db' result
  | error e db' =>
    show db'.Inv
    rw [threw e db' result]
    exact inv

/-- The step lemma: one allowed operation keeps the invariant, on a normal return and on a
throw alike. -/
theorem inv_stateAfter (inv : db.Inv) (allowed : op.Allowed db) : (stateAfter (op.run db)).Inv := by
  cases op with
  | add n ignoreDuplicate =>
    exact inv_stateAfter_of inv (fun _ => add_inv inv) (fun _ _ => add_error)
  | markValid h =>
    exact inv_stateAfter_of inv (fun _ => markValid_inv inv) (fun _ _ => markValid_error)
  | remove id =>
    exact inv_stateAfter_of inv (fun _ => remove_inv inv) (fun _ _ => remove_error)
  | rollbackHeadToRoot => exact rollbackHeadToRoot_inv inv rfl
  | advanceRoot id =>
    -- an allowed `advance_root` never throws, so only its normal return is left
    obtain ⟨db', returns⟩ := advanceRoot_returns inv allowed
    simp only [run, returns, stateAfter]
    exact advanceRoot_inv inv returns

end Operation

/-- The run lemma: every reachable state satisfies the invariant. -/
theorem Reachable.inv {db : ForkDatabase} (reached : Reachable db) : db.Inv := by
  induction reached with
  | reset rootBhs => exact ForkDatabase.reset_inv rootBhs
  | step op _ allowed inv => exact op.inv_stateAfter inv allowed

/-- Along every run of the fork database: each indexed block is linked to the root or to
another indexed block, the head is the root or a validated indexed block that no validated
block is preferred to, and the `previous` links from each indexed block descend strictly
in block number down to the root's id. -/
theorem reachable_forkDatabase_inv {db : ForkDatabase} (reached : Reachable db) :
    db.Inv ∧ ∀ b ∈ db.index.blocks, db.root.blockNum < b.blockNum ∧
      (∀ x ∈ ancestry db.index b, x.num < b.blockNum) ∧
      (ancestry db.index b).getLast? = some db.root.id := by
  have inv := reached.inv
  refine ⟨inv, fun b mem => ⟨inv.root_lt mem, fun x => num_lt_of_mem_ancestry, ?_⟩⟩
  exact inv.ancestry_getLast mem

/-- The run that resets to block 1 and adds an unvalidated block 2 on it. -/
theorem reachable_forkDatabase_inv_after_add :
    let db := stateAfter ((Operation.add ⟨⟨2, 7⟩, ⟨1, 0⟩, 2, 1, false, rfl, rfl⟩ false).run
      (ForkDatabase.reset ⟨⟨1, 0⟩, ⟨0, 0⟩, 1, 0, true, rfl, rfl⟩))
    Reachable db ∧ db.Inv ∧ ∀ b ∈ db.index.blocks, db.root.blockNum < b.blockNum ∧
      (∀ x ∈ ancestry db.index b, x.num < b.blockNum) ∧
      (ancestry db.index b).getLast? = some db.root.id := by
  intro db
  have reached : Reachable db := .step _ (.reset _) trivial
  exact ⟨reached, reachable_forkDatabase_inv reached⟩

end Fio.Chain
