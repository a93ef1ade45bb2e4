import FioChain.Types
import FioChain.Lib.KeyedList

/-! The contract database that `apply_context` keeps for a running action: one
`table_id_object` per `(code, scope, table)`, with the rows of the primary `key_value_index`
and of the five secondary indices of `generic_index` under it, and the RAM each account is
billed for them through `update_db_usage`.

Each chainbase container is a list whose records have a unique key, as its
`ordered_unique` indices keep them: tables by id, rows by `(index, t_id, primary_key)`. The
model identifies a row by that key where the code holds an iterator to it, and reads a
table through the iterator cache as the database's table of that id. The secondary keys are
carried as numbers: the bookkeeping never reads them. -/

namespace Fio.Chain

namespace Config

/-- `overhead_per_row_per_index_ram_bytes`. -/
def overheadPerRowPerIndexRamBytes : Nat := 32

/-- `billable_alignment`. -/
def billableAlignment : Nat := 16

/-- `billable_size_v<T>`: `billable_size<T>::value` rounded up to the alignment. -/
def billableSizeV (value : Nat) : Nat :=
  (value + billableAlignment - 1) / billableAlignment * billableAlignment

end Config

/-- `account_name()`, the empty name. -/
def Name.empty : Name := ⟨0⟩

/-- The secondary indices a contract may keep beside its primary rows. -/
inductive SecondaryIndex where
  | index64
  | index128
  | index256
  | indexDouble
  | indexLongDouble
  deriving DecidableEq, Repr

/-- `billable_size<T>::value` of the row type each secondary index holds: fixed fields,
the key, and three per-index overheads. -/
def SecondaryIndex.billableSize : SecondaryIndex → Nat
  | index64 => 24 + 8 + Config.overheadPerRowPerIndexRamBytes * 3
  | index128 => 24 + 16 + Config.overheadPerRowPerIndexRamBytes * 3
  | index256 => 24 + 32 + Config.overheadPerRowPerIndexRamBytes * 3
  | indexDouble => 24 + 8 + Config.overheadPerRowPerIndexRamBytes * 3
  | indexLongDouble => 24 + 16 + Config.overheadPerRowPerIndexRamBytes * 3

/-- `billable_size<key_value_object>::value`. -/
def keyValueObjectBillableSize : Nat := 32 + 8 + 4 + Config.overheadPerRowPerIndexRamBytes * 2

/-- `billable_size<table_id_object>::value`. -/
def tableIdObjectBillableSize : Nat := 44 + Config.overheadPerRowPerIndexRamBytes * 2

/-- The container a row lives in. -/
inductive RowIndex where
  | keyValue
  | secondary (index : SecondaryIndex)
  deriving DecidableEq, Repr

/-- `table_id_object`. -/
structure TableIdObject where
  id : Nat
  code : Name
  scope : Name
  table : Name
  payer : Name
  count : UInt32
  deriving DecidableEq, Repr

/-- What identifies a row: its container and its `(t_id, primary_key)`. -/
structure RowKey where
  index : RowIndex
  tId : Nat
  primaryKey : UInt64
  deriving DecidableEq, Repr

/-- A `key_value_object`, or a row of a secondary index. A secondary row keeps its key in
`secondaryKey` and no value. -/
structure Row where
  index : RowIndex
  tId : Nat
  primaryKey : UInt64
  payer : Name
  value : List UInt8
  secondaryKey : Nat
  deriving DecidableEq, Repr

def Row.key (r : Row) : RowKey := ⟨r.index, r.tId, r.primaryKey⟩

/-- The RAM a row is billed for: its value and the aligned size of its type. -/
def Row.billableSize (r : Row) : Nat :=
  match r.index with
  | .keyValue => r.value.length + Config.billableSizeV keyValueObjectBillableSize
  | .secondary index => Config.billableSizeV index.billableSize

structure ContractDb where
  tables : List TableIdObject
  rows : List Row
  /-- The id chainbase gives the next `table_id_object`. -/
  nextTableId : Nat
  /-- For each account, the sum of the deltas `update_db_usage` passed to `add_ram_usage`. -/
  ramUsage : Name → Int

/-- What the table operations read of the `apply_context` and the controller. -/
structure ApplyContext where
  receiver : Name
  /-- `act->account`. -/
  actAccount : Name
  privileged : Bool
  /-- `control.is_builtin_activated(builtin_protocol_feature_t::ram_restrictions)`. -/
  ramRestrictions : Bool
  /-- `control.is_ram_billing_in_notify_allowed()`. -/
  ramBillingInNotifyAllowed : Bool
  /-- The actors of `act->authorization`. -/
  authorization : List Name

namespace ContractDb

def addRamUsage (db : ContractDb) (account : Name) (delta : Int) : ContractDb :=
  { db with ramUsage := Function.update db.ramUsage account (db.ramUsage account + delta) }

def findTable (db : ContractDb) (code scope table : Name) : Option TableIdObject :=
  db.tables.find? fun t => t.code = code ∧ t.scope = scope ∧ t.table = table

/-- `keyval_cache.get_table`. -/
def getTable (db : ContractDb) (tId : Nat) : Except Exception TableIdObject :=
  match KeyedList.find TableIdObject.id db.tables tId with
  | some t => pure t
  | none => throw (.tableNotInCache "an invariant was broken, table should be in cache")

/-- The row an iterator points at. -/
def getRow (db : ContractDb) (key : RowKey) : Except Exception Row :=
  match KeyedList.find Row.key db.rows key with
  | some r => pure r
  | none => throw (.tableOperationNotPermitted "dereference of deleted object")

/-- chainbase's `create`, refused when another row has the new row's unique key. -/
def createRow (db : ContractDb) (r : Row) : Except Exception ContractDb :=
  match KeyedList.find Row.key db.rows r.key with
  | some _ => throw .uniquenessViolation
  | none => pure { db with rows := db.rows ++ [r] }

def modifyRow (db : ContractDb) (key : RowKey) (g : Row → Row) : ContractDb :=
  { db with rows := KeyedList.modify Row.key db.rows key g }

def removeRow (db : ContractDb) (key : RowKey) : ContractDb :=
  { db with rows := KeyedList.erase Row.key db.rows key }

/-- `db.modify(tab, ...)` of the row count. -/
def modifyCount (db : ContractDb) (tId : Nat) (g : UInt32 → UInt32) : ContractDb :=
  { db with tables := KeyedList.modify TableIdObject.id db.tables tId fun t => { t with count := g t.count } }

end ContractDb

namespace ApplyContext

variable (ctx : ApplyContext)

def requireAuthorization (account : Name) : Except Exception Unit :=
  if account ∈ ctx.authorization then pure ()
  else throw (.missingAuthException "missing authority of ${account}")

/-- `update_db_usage`: a charge to another account than the receiver needs its authority,
and outside a notification, unless the contract is privileged or RAM restrictions are on. -/
def updateDbUsage (payer : Name) (delta : Int) (db : ContractDb) : Except Exception ContractDb := do
  if delta > 0 then
    if !(ctx.privileged || payer == ctx.receiver || ctx.ramRestrictions) then
      if !(ctx.ramBillingInNotifyAllowed || ctx.receiver == ctx.actAccount) then
        throw (.subjectiveBlockProductionException "Cannot charge RAM to other accounts during notify.")
      ctx.requireAuthorization payer
  pure (db.addRamUsage payer delta)

def findOrCreateTable (code scope table payer : Name) (db : ContractDb) :
    Except Exception (TableIdObject × ContractDb) :=
  match db.findTable code scope table with
  | some existing => pure (existing, db)
  | none => do
    let db ← ctx.updateDbUsage payer (Config.billableSizeV tableIdObjectBillableSize) db
    let t : TableIdObject := { id := db.nextTableId, code, scope, table, payer, count := 0 }
    pure (t, { db with tables := db.tables ++ [t], nextTableId := db.nextTableId + 1 })

def removeTable (tid : TableIdObject) (db : ContractDb) : Except Exception ContractDb := do
  let db ← ctx.updateDbUsage tid.payer (-(Config.billableSizeV tableIdObjectBillableSize : Int)) db
  pure { db with tables := KeyedList.erase TableIdObject.id db.tables tid.id }

def dbStoreI64 (code scope table payer : Name) (id : UInt64) (buffer : List UInt8)
    (db : ContractDb) : Except Exception ContractDb := do
  let (tab, db) ← ctx.findOrCreateTable code scope table payer db
  if payer = Name.empty then
    throw (.invalidTablePayer "must specify a valid account to pay for new record")
  let db ← db.createRow
    { index := .keyValue, tId := tab.id, primaryKey := id, payer, value := buffer, secondaryKey := 0 }
  let db := db.modifyCount tab.id (· + 1)
  let billableSize : Int := buffer.length + Config.billableSizeV keyValueObjectBillableSize
  ctx.updateDbUsage payer billableSize db

def dbUpdateI64 (iterator : RowKey) (payer : Name) (buffer : List UInt8) (db : ContractDb) :
    Except Exception ContractDb := do
  let obj ← db.getRow { iterator with index := .keyValue }
  let tableObj ← db.getTable obj.tId
  if tableObj.code ≠ ctx.receiver then throw (.tableAccessViolation "db access violation")
  let overhead : Int := Config.billableSizeV keyValueObjectBillableSize
  let oldSize : Int := obj.value.length + overhead
  let newSize : Int := buffer.length + overhead
  let payer := if payer = Name.empty then obj.payer else payer
  let db ←
    if obj.payer ≠ payer then do
      -- refund the existing payer, then charge the new one
      let db ← ctx.updateDbUsage obj.payer (-oldSize) db
      ctx.updateDbUsage payer newSize db
    else if oldSize ≠ newSize then
      ctx.updateDbUsage obj.payer (newSize - oldSize) db
    else pure db
  pure (db.modifyRow obj.key fun o => { o with value := buffer, payer })

def dbRemoveI64 (iterator : RowKey) (db : ContractDb) : Except Exception ContractDb := do
  let obj ← db.getRow { iterator with index := .keyValue }
  let tableObj ← db.getTable obj.tId
  if tableObj.code ≠ ctx.receiver then throw (.tableAccessViolation "db access violation")
  let db ← ctx.updateDbUsage obj.payer
    (-((obj.value.length + Config.billableSizeV keyValueObjectBillableSize : Nat) : Int)) db
  let db := db.modifyCount tableObj.id (· - 1)
  let db := db.removeRow obj.key
  -- `table_obj` is a reference: it reads the count just decremented
  if tableObj.count - 1 = 0 then ctx.removeTable tableObj db else pure db

/-- `generic_index<ObjectType>::store`. Unlike `db_store_i64` it checks the payer before it
looks the table up, and always in the receiver's own tables. -/
def store (index : SecondaryIndex) (scope table payer : Name) (id : UInt64) (secondary : Nat)
    (db : ContractDb) : Except Exception ContractDb := do
  if payer = Name.empty then
    throw (.invalidTablePayer "must specify a valid account to pay for new record")
  let (tab, db) ← ctx.findOrCreateTable ctx.receiver scope table payer db
  let db ← db.createRow
    { index := .secondary index, tId := tab.id, primaryKey := id, payer, value := [],
      secondaryKey := secondary }
  let db := db.modifyCount tab.id (· + 1)
  ctx.updateDbUsage payer (Config.billableSizeV index.billableSize) db

/-- `generic_index<ObjectType>::remove`. The refund comes before the access check. -/
def remove (index : SecondaryIndex) (iterator : RowKey) (db : ContractDb) :
    Except Exception ContractDb := do
  let obj ← db.getRow { iterator with index := .secondary index }
  let db ← ctx.updateDbUsage obj.payer (-(Config.billableSizeV index.billableSize : Int)) db
  let tableObj ← db.getTable obj.tId
  if tableObj.code ≠ ctx.receiver then throw (.tableAccessViolation "db access violation")
  let db := db.modifyCount tableObj.id (· - 1)
  let db := db.removeRow obj.key
  if tableObj.count - 1 = 0 then ctx.removeTable tableObj db else pure db

/-- `generic_index<ObjectType>::update`: a new payer takes the row's whole charge over. -/
def update (index : SecondaryIndex) (iterator : RowKey) (payer : Name) (secondary : Nat)
    (db : ContractDb) : Except Exception ContractDb := do
  let obj ← db.getRow { iterator with index := .secondary index }
  let tableObj ← db.getTable obj.tId
  if tableObj.code ≠ ctx.receiver then throw (.tableAccessViolation "db access violation")
  let payer := if payer = Name.empty then obj.payer else payer
  let billingSize : Int := Config.billableSizeV index.billableSize
  let db ←
    if obj.payer ≠ payer then do
      let db ← ctx.updateDbUsage obj.payer (-billingSize) db
      ctx.updateDbUsage payer billingSize db
    else pure db
  pure (db.modifyRow obj.key fun o => { o with secondaryKey := secondary, payer })

end ApplyContext

/-- The table calls a contract makes within an action. -/
inductive DbOperation where
  | dbStoreI64 (code scope table payer : Name) (id : UInt64) (buffer : List UInt8)
  | dbUpdateI64 (iterator : RowKey) (payer : Name) (buffer : List UInt8)
  | dbRemoveI64 (iterator : RowKey)
  | store (index : SecondaryIndex) (scope table payer : Name) (id : UInt64) (secondary : Nat)
  | update (index : SecondaryIndex) (iterator : RowKey) (payer : Name) (secondary : Nat)
  | remove (index : SecondaryIndex) (iterator : RowKey)

def DbOperation.run (ctx : ApplyContext) : DbOperation → ContractDb → Except Exception ContractDb
  | dbStoreI64 code scope table payer id buffer => ctx.dbStoreI64 code scope table payer id buffer
  | dbUpdateI64 iterator payer buffer => ctx.dbUpdateI64 iterator payer buffer
  | dbRemoveI64 iterator => ctx.dbRemoveI64 iterator
  | store index scope table payer id secondary => ctx.store index scope table payer id secondary
  | update index iterator payer secondary => ctx.update index iterator payer secondary
  | remove index iterator => ctx.remove index iterator

end Fio.Chain
