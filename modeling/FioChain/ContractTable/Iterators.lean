import FioChain.ContractTable.Invariant
import FioChain.ContractTable.IteratorCache
import FioChain.Lib.SortedIndex

/-! The primary-key calls of `apply_context` with the iterator cache `keyval_cache`, from
`db_store_i64` to `db_end_i64`. A contract holds plain `int` iterators; each call reads and
extends the cache, and the navigating calls walk `key_value_index` ordered `by_scope_primary`.

That index is the list of primary rows sorted by `(t_id, primary_key)`; an iterator into it is a
position, `end()` its length. The database part of the writing calls is the one of
`ContractTable.Model`, run on the row a cached pointer names. -/

namespace Fio.Chain

/-- `by_scope_primary`'s composite key `(t_id, primary_key)` as one number: the primary key is
below `2 ^ 64`, so these numbers are ordered as the pairs are, lexicographically. -/
def scopePrimaryKey (tId : Nat) (id : UInt64) : Nat := tId * 2 ^ 64 + id.toNat

def Row.scopePrimary (r : Row) : Nat := scopePrimaryKey r.tId r.primaryKey

namespace ContractDb

/-- `key_value_index` ordered `by_scope_primary`. -/
def byScopePrimary (db : ContractDb) : List Row :=
  SortedIndex.sort Row.scopePrimary (db.rows.filter fun r => r.index = .keyValue)

end ContractDb

/-- `idx.iterator_to(obj)`: the position of the row `obj` names. -/
def iteratorTo (idx : List Row) (obj : RowKey) : Nat := idx.findIdx fun r => r.key = obj

/-- What the primary-key calls of one `apply_context` read and write. -/
structure ApplyState where
  db : ContractDb
  keyvalCache : IteratorCache RowKey

namespace ApplyState

/-- `db_store_i64`. -/
def dbStoreI64 (ctx : ApplyContext) (code scope table payer : Name) (id : UInt64) (buffer : List UInt8)
    (s : ApplyState) : Except Exception (Int × ApplyState) := do
  let (tab, db) ← ctx.findOrCreateTable code scope table payer s.db
  if payer = Name.empty then
    throw (.invalidTablePayer "must specify a valid account to pay for new record")
  let db ← db.createRow
    { index := .keyValue, tId := tab.id, primaryKey := id, payer, value := buffer, secondaryKey := 0 }
  let db := db.modifyCount tab.id (· + 1)
  let billableSize : Int := buffer.length + Config.billableSizeV keyValueObjectBillableSize
  let db ← ctx.updateDbUsage payer billableSize db
  let keyvalCache := (s.keyvalCache.cacheTable tab.id).2
  pure ((keyvalCache.add ⟨.keyValue, tab.id, id⟩).1, ⟨db, (keyvalCache.add ⟨.keyValue, tab.id, id⟩).2⟩)

/-- `db_update_i64`: the row and its table through the cache, then the update of the row. -/
def dbUpdateI64 (ctx : ApplyContext) (iterator : Int) (payer : Name) (buffer : List UInt8) (s : ApplyState) :
    Except Exception ApplyState := do
  let obj ← s.keyvalCache.get iterator
  let _ ← s.keyvalCache.getTable obj.tId
  let db ← ctx.dbUpdateI64 obj payer buffer s.db
  pure { s with db }

/-- `db_remove_i64`: the row and its table through the cache, the removal, then the iterator's
slot emptied. -/
def dbRemoveI64 (ctx : ApplyContext) (iterator : Int) (s : ApplyState) : Except Exception ApplyState := do
  let obj ← s.keyvalCache.get iterator
  let _ ← s.keyvalCache.getTable obj.tId
  let db ← ctx.dbRemoveI64 obj s.db
  let keyvalCache ← s.keyvalCache.remove iterator
  pure ⟨db, keyvalCache⟩

/-- `db_get_i64`: the size of the value when `buffer_size` is zero, and otherwise the number of
bytes copied, with the bytes. -/
def dbGetI64 (iterator : Int) (bufferSize : Nat) (s : ApplyState) : Except Exception (Nat × List UInt8) := do
  let obj ← s.keyvalCache.get iterator
  let row ← s.db.getRow obj
  if bufferSize = 0 then pure (row.value.length, [])
  else pure (min bufferSize row.value.length, row.value.take (min bufferSize row.value.length))

/-- `keyval_cache.add(*itr)`, with `primary` set to the row's key. -/
def addRow (r : Row) (s : ApplyState) : Int × UInt64 × ApplyState :=
  ((s.keyvalCache.add r.key).1, r.primaryKey, { s with keyvalCache := (s.keyvalCache.add r.key).2 })

/-- `db_next_i64`, with the value `primary` holds before and after. -/
def dbNextI64 (iterator : Int) (primary : UInt64) (s : ApplyState) :
    Except Exception (Int × UInt64 × ApplyState) :=
  -- cannot increment past end iterator of table
  if iterator < -1 then pure (-1, primary, s)
  else do
    let obj ← s.keyvalCache.get iterator
    let idx := s.db.byScopePrimary
    -- `++itr`, and `itr == idx.end() || itr->t_id != obj.t_id`
    match idx[iteratorTo idx obj + 1]?.filter (·.tId = obj.tId) with
    | some next => pure (addRow next s)
    | none => do
      let ei ← s.keyvalCache.getEndIteratorByTableId obj.tId
      pure (ei, primary, s)

/-- `db_previous_i64`, with the value `primary` holds before and after. -/
def dbPreviousI64 (iterator : Int) (primary : UInt64) (s : ApplyState) :
    Except Exception (Int × UInt64 × ApplyState) := do
  let idx := s.db.byScopePrimary
  if iterator < -1 then
    match ← s.keyvalCache.findTableByEndIterator iterator with
    | none => throw (.invalidTableIterator "not a valid end iterator")
    | some tab =>
      -- `idx.upper_bound(tab->id)`: the first row of a table with a larger id
      let itr := SortedIndex.lowerBound Row.scopePrimary idx (scopePrimaryKey (tab + 1) 0)
      if idx = [] ∨ itr = 0 then pure (-1, primary, s)
      else
        match idx[itr - 1]?.filter (·.tId = tab) with
        | some prev => pure (addRow prev s)
        | none => pure (-1, primary, s)
  else
    let obj ← s.keyvalCache.get iterator
    let itr := iteratorTo idx obj
    if itr = 0 then pure (-1, primary, s)
    else
      match idx[itr - 1]?.filter (·.tId = obj.tId) with
      | some prev => pure (addRow prev s)
      | none => pure (-1, primary, s)

/-- `db_find_i64`. -/
def dbFindI64 (code scope table : Name) (id : UInt64) (s : ApplyState) : Int × ApplyState :=
  match s.db.findTable code scope table with
  | none => (-1, s)
  | some tab =>
    let keyvalCache := (s.keyvalCache.cacheTable tab.id).2
    match KeyedList.find Row.key s.db.rows ⟨.keyValue, tab.id, id⟩ with
    | none => ((s.keyvalCache.cacheTable tab.id).1, { s with keyvalCache })
    | some obj => ((keyvalCache.add obj.key).1, { s with keyvalCache := (keyvalCache.add obj.key).2 })

/-- The body `db_lowerbound_i64` and `db_upperbound_i64` share: the row at the position `bound`
gives, if it is in the table, and the table's end iterator otherwise. -/
def boundI64 (bound : List Row → Nat → UInt64 → Nat) (code scope table : Name) (id : UInt64) (s : ApplyState) :
    Int × ApplyState :=
  match s.db.findTable code scope table with
  | none => (-1, s)
  | some tab =>
    let keyvalCache := (s.keyvalCache.cacheTable tab.id).2
    let idx := s.db.byScopePrimary
    match idx[bound idx tab.id id]?.filter (·.tId = tab.id) with
    | none => ((s.keyvalCache.cacheTable tab.id).1, { s with keyvalCache })
    | some r => ((keyvalCache.add r.key).1, { s with keyvalCache := (keyvalCache.add r.key).2 })

/-- `db_lowerbound_i64`: `idx.lower_bound(make_tuple(tab->id, id))`. -/
def dbLowerboundI64 (code scope table : Name) (id : UInt64) (s : ApplyState) : Int × ApplyState :=
  boundI64 (fun idx tId id => SortedIndex.lowerBound Row.scopePrimary idx (scopePrimaryKey tId id))
    code scope table id s

/-- `db_upperbound_i64`: `idx.upper_bound(make_tuple(tab->id, id))`, the first key above. -/
def dbUpperboundI64 (code scope table : Name) (id : UInt64) (s : ApplyState) : Int × ApplyState :=
  boundI64 (fun idx tId id => SortedIndex.lowerBound Row.scopePrimary idx (scopePrimaryKey tId id + 1))
    code scope table id s

/-- `db_end_i64`. -/
def dbEndI64 (code scope table : Name) (s : ApplyState) : Int × ApplyState :=
  match s.db.findTable code scope table with
  | none => (-1, s)
  | some tab => ((s.keyvalCache.cacheTable tab.id).1, { s with keyvalCache := (s.keyvalCache.cacheTable tab.id).2 })

end ApplyState

end Fio.Chain
