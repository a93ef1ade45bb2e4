import FioChain.Lib.SortedIndex
import FioChain.Lib.KeyedList
import FioChain.Types

/-! The action history of `history_plugin`: `record_account_action` gives each action an
account's next `account_sequence_num` and drops the account's entry `history_per_account`
back, releasing the `action_history_object` it referred to when its `use_count` runs out;
`on_action_trace` records an action for every account of its account set, then stores the
action with the number of entries referring to it.

`account_history_index` is read through `by_account_action_seq`, the entries sorted by
`(account, account_sequence_num)`; a lookup key's second part is an `int64_t`, so the key is an
integer there. `packed_action_trace` holds the trace itself. -/

namespace Fio.Chain

namespace History

/-- `account_history_object`. -/
structure AccountHistoryObject where
  account : Name
  actionSequenceNum : Nat
  accountSequenceNum : Nat
  deriving DecidableEq, Repr

/-- A key of `by_account_action_seq`. -/
def accountSeq (account : Name) (seq : Int) : ℕ ×ₗ ℤ := toLex (account.value.toNat, seq)

def AccountHistoryObject.key (a : AccountHistoryObject) : ℕ ×ₗ ℤ := accountSeq a.account a.accountSequenceNum

/-- `action_history_object`. -/
structure ActionHistoryObject (τ : Type) where
  actionSequenceNum : Nat
  packedActionTrace : τ
  blockNum : Nat
  blockTime : BlockTimestamp
  useCount : UInt8
  deriving DecidableEq, Repr

variable {τ : Type}

/-- `hidb`'s `account_history_index` and `hdb`'s `action_history_index`, in creation order. -/
structure HistoryDb (τ : Type) where
  accountHistory : List AccountHistoryObject
  actionHistory : List (ActionHistoryObject τ)

/-- `account_history_index` ordered `by_account_action_seq`. -/
def HistoryDb.byAccountActionSeq (db : HistoryDb τ) : List AccountHistoryObject :=
  SortedIndex.sort AccountHistoryObject.key db.accountHistory

/-- `hdb.get<action_history_object, by_action_sequence_num>(seq)`. -/
def HistoryDb.getAction (db : HistoryDb τ) (seq : Nat) : Except Exception (ActionHistoryObject τ) :=
  match KeyedList.find ActionHistoryObject.actionSequenceNum db.actionHistory seq with
  | some a => pure a
  | none => throw .unknownKey

/-- The start of `record_account_action`: one past the `account_sequence_num` of the entry
before `idx.lower_bound(name(n.value + 1), 0)` when that entry is the account's, and `0`
otherwise. On an empty index the C++ dereferences `idx.end()`, which is undefined behaviour;
the `none` branch reads it as no entry, so the first recording of a run numbers from `0`. -/
def nextAccountSequenceNum (idx : List AccountHistoryObject) (n : Name) : Nat :=
  let itr := SortedIndex.lowerBound AccountHistoryObject.key idx (accountSeq ⟨n.value + 1⟩ 0)
  let itr := if itr = 0 then itr else itr - 1
  match idx[itr]? with
  | some a => if a.account = n then a.accountSequenceNum + 1 else 0
  | none => 0

/-- `record_account_action`. The entry `history_per_account` back is found with
`lower_bound(n, asn - history_per_account)` in the index that already holds the new entry, so
there is one; its action loses a use, or goes when this was its last. -/
def recordAccountAction (historyPerAccount : Nat) (n : Name) (globalSequence : Nat) (db : HistoryDb τ) :
    Except Exception (HistoryDb τ) := do
  let asn := nextAccountSequenceNum db.byAccountActionSeq n
  let entry : AccountHistoryObject := ⟨n, globalSequence, asn⟩
  if (KeyedList.find AccountHistoryObject.key db.accountHistory entry.key).isSome then
    throw .uniquenessViolation
  let db := { db with accountHistory := db.accountHistory ++ [entry] }
  if historyPerAccount ≤ asn then
    let idx := db.byAccountActionSeq
    match idx[SortedIndex.lowerBound AccountHistoryObject.key idx
        (accountSeq n ((asn - historyPerAccount : Nat) : Int))]? with
    | none => throw .unknownKey
    | some old =>
      let target ← db.getAction old.actionSequenceNum
      let actionHistory :=
        if target.useCount = 1 then
          KeyedList.erase ActionHistoryObject.actionSequenceNum db.actionHistory target.actionSequenceNum
        else
          KeyedList.modify ActionHistoryObject.actionSequenceNum db.actionHistory target.actionSequenceNum
            fun a => { a with useCount := a.useCount - 1 }
      pure ⟨KeyedList.erase AccountHistoryObject.key db.accountHistory old.key, actionHistory⟩
  else pure db

/-- `for (auto a : aset) { record_account_action(a, at); use_count++; }` -/
def recordAll (historyPerAccount globalSequence : Nat) :
    List Name → HistoryDb τ × UInt8 → Except Exception (HistoryDb τ × UInt8)
  | [], acc => pure acc
  | n :: rest, acc => do
    let db ← recordAccountAction historyPerAccount n globalSequence acc.1
    recordAll historyPerAccount globalSequence rest (db, acc.2 + 1)

/-- `on_action_trace` for an action that `filter` lets through, with `aset = account_set(at)`
in the order of the set. -/
def onActionTrace (historyPerAccount : Nat) (aset : List Name) (globalSequence blockNum : Nat)
    (blockTime : BlockTimestamp) (trace : τ) (db : HistoryDb τ) : Except Exception (HistoryDb τ) := do
  let recorded ← recordAll historyPerAccount globalSequence aset (db, 0)
  let db := recorded.1
  if (KeyedList.find ActionHistoryObject.actionSequenceNum db.actionHistory globalSequence).isSome then
    throw .uniquenessViolation
  pure { db with
    actionHistory := db.actionHistory ++ [⟨globalSequence, trace, blockNum, blockTime, recorded.2⟩] }

/-- An action trace with a receipt that `filter` lets through, as `on_action_trace` reads it:
`account_set(at)` in the set's order, `receipt->global_sequence`, and what the stored object
keeps of it. -/
structure ActionRecord (τ : Type) where
  aset : List Name
  globalSequence : Nat
  blockNum : Nat
  blockTime : BlockTimestamp
  trace : τ
  deriving DecidableEq, Repr

/-- `on_action_trace` over the action traces of a run of `on_applied_transaction`, in order. -/
def onActionTraces (historyPerAccount : Nat) : List (ActionRecord τ) → HistoryDb τ → Except Exception (HistoryDb τ)
  | [], db => pure db
  | act :: rest, db => do
    let db ← onActionTrace historyPerAccount act.aset act.globalSequence act.blockNum act.blockTime act.trace db
    onActionTraces historyPerAccount rest db

end History

end Fio.Chain
